import ProtoIdl.Command.Path
import Mathlib.Data.List.Basic
/-!
# How paths are written

The names of a path that was read are not empty, not `.`, and without slashes, and in front of them stand
no more than two slashes (`ofString_isNormal`). Such a path is read back from its written form
(`IsNormal.ofString_render`), so no two of them are written alike.
-/
namespace ProtoIdl.Command

/-- What a path can have as a name. -/
structure IsName (name : String) : Prop where
  ne_empty : name ≠ ""
  ne_here : name ≠ "."
  noSlash : '/' ∉ name.toList

instance (name : String) : Decidable (IsName name) :=
  decidable_of_iff (name ≠ "" ∧ name ≠ "." ∧ '/' ∉ name.toList)
    ⟨fun ⟨hempty, hhere, hslash⟩ => ⟨hempty, hhere, hslash⟩, fun h => ⟨h.ne_empty, h.ne_here, h.noSlash⟩⟩

namespace Path

variable {chars part : List Char} {name : String} {p q : Path}

/-- No slash is left in a part. -/
theorem noSlash_of_mem_split (h : part ∈ split chars) : '/' ∉ part := by
  induction chars generalizing part with
  | nil =>
    obtain rfl : part = [] := List.mem_singleton.1 h
    exact List.not_mem_nil
  | cons c rest ih =>
    rw [split] at h
    split at h
    · rcases List.mem_cons.1 h with rfl | h
      · exact List.not_mem_nil
      · exact ih h
    · next hc =>
      split at h
      · obtain rfl : part = [c] := List.mem_singleton.1 h
        exact fun hmem => hc (List.mem_singleton.1 hmem).symm
      · next first others hsplit =>
        rcases List.mem_cons.1 h with rfl | h
        · rintro (_ | ⟨_, hmem⟩)
          · exact hc rfl
          · exact ih (hsplit ▸ List.mem_cons_self) hmem
        · exact ih (hsplit ▸ List.mem_cons_of_mem _ h)

theorem split_append_slash (h : '/' ∉ part) (rest : List Char) :
    split (part ++ '/' :: rest) = part :: split rest := by
  induction part with
  | nil => rw [List.nil_append, split, if_pos rfl]
  | cons c part ih =>
    obtain ⟨hc, hpart⟩ := not_or.1 (mt List.mem_cons.2 h)
    rw [List.cons_append, split, if_neg (Ne.symm hc), ih hpart]

theorem split_of_noSlash (h : '/' ∉ part) : split part = [part] := by
  induction part with
  | nil => rfl
  | cons c part ih =>
    obtain ⟨hc, hpart⟩ := not_or.1 (mt List.mem_cons.2 h)
    rw [split, if_neg (Ne.symm hc), ih hpart]

/-- The parts are those that were put together. -/
theorem split_intercalate (parts : List (List Char)) (hne : parts ≠ []) (h : ∀ n ∈ parts, '/' ∉ n) :
    split (['/'].intercalate parts) = parts := by
  induction parts with
  | nil => exact absurd rfl hne
  | cons part rest ih =>
    obtain ⟨hpart, hrest⟩ := List.forall_mem_cons.1 h
    cases rest with
    | nil => rw [List.intercalate_singleton, split_of_noSlash hpart]
    | cons next rest =>
      rw [List.intercalate_cons_cons, List.append_assoc, List.singleton_append,
        split_append_slash hpart, ih (List.cons_ne_nil _ _) hrest]

theorem isName_of_mem {s : String} (h : name ∈ (ofString s).names) : IsName name := by
  obtain ⟨hmem, hne⟩ := List.mem_filter.1 h
  obtain ⟨part, hpart, rfl⟩ := List.mem_map.1 hmem
  obtain ⟨hempty, hhere⟩ : String.ofList part ≠ "" ∧ String.ofList part ≠ "." := by simpa using hne
  exact ⟨hempty, hhere, by rw [String.toList_ofList]; exact noSlash_of_mem_split hpart⟩

/-- What can stand in front of the names. -/
def IsRoot (root : String) : Prop := root = "" ∨ root = "/" ∨ root = "//"

/-- What a path is after it was read. -/
structure IsNormal (p : Path) : Prop where
  root : IsRoot p.root
  names : ∀ n ∈ p.names, IsName n

theorem ofString_isNormal (s : String) : (ofString s).IsNormal := by
  refine ⟨?_, fun n hn => isName_of_mem hn⟩
  show IsRoot (rootOf s.toList)
  unfold rootOf
  split
  · exact .inl rfl
  · exact .inr (.inr rfl)
  · exact .inr (.inl rfl)

/-- Names do not begin with a slash. -/
theorem takeWhile_slash {names : List String} (h : ∀ n ∈ names, IsName n) :
    (['/'].intercalate (names.map String.toList)).takeWhile (· == '/') = [] := by
  cases names with
  | nil => rfl
  | cons name rest =>
    have hname := h name List.mem_cons_self
    obtain ⟨c, cs, hcs⟩ := List.exists_cons_of_ne_nil (mt String.toList_eq_nil_iff.1 hname.ne_empty)
    have hc : ¬ (c == '/') = true := by
      rw [beq_iff_eq]
      exact fun hc => hname.noSlash (hcs ▸ hc ▸ List.mem_cons_self)
    rw [List.map_cons, hcs]
    cases rest with
    | nil => exact List.takeWhile_cons_of_neg hc
    | cons next rest =>
      rw [List.map_cons, List.intercalate_cons_cons]
      exact List.takeWhile_cons_of_neg hc

/-- The names are those that were put together. -/
theorem names_intercalate {names : List String} (h : ∀ n ∈ names, IsName n) :
    ((split (['/'].intercalate (names.map String.toList))).map String.ofList).filter
      (fun n => n ≠ "" && n ≠ ".") = names := by
  cases names with
  | nil => decide
  | cons name rest =>
    have hsplit := split_intercalate ((name :: rest).map String.toList) (List.cons_ne_nil _ _)
      (List.forall_mem_map.2 fun n hn => (h n hn).noSlash)
    rw [hsplit, List.map_map]
    simp only [Function.comp_def, String.ofList_toList, List.map_id']
    refine List.filter_eq_self.2 fun n hn => ?_
    simpa using ⟨(h n hn).ne_empty, (h n hn).ne_here⟩

theorem rootOf_append {root : String} (hroot : IsRoot root)
    (h : chars.takeWhile (· == '/') = []) : rootOf (root.toList ++ chars) = root := by
  rcases hroot with rfl | rfl | rfl <;> simp [rootOf, h]

/-- A slash in front adds an empty name, which is not kept. -/
theorem names_append {root : String} (hroot : IsRoot root) (chars : List Char) :
    ((split (root.toList ++ chars)).map String.ofList).filter (fun n => n ≠ "" && n ≠ ".") =
      ((split chars).map String.ofList).filter (fun n => n ≠ "" && n ≠ ".") := by
  have hslash (chars : List Char) : split ('/' :: chars) = [] :: split chars := by
    rw [split, if_pos rfl]
  rcases hroot with rfl | rfl | rfl <;> simp [hslash]

/-- A path is read back from its written form. -/
theorem IsNormal.ofString_render (h : p.IsNormal) : ofString p.render = p := by
  obtain ⟨root, names⟩ := p
  obtain ⟨hroot, hnames⟩ := h
  -- the path without names and root is written as a point
  by_cases hhere : root = "" ∧ names = []
  · obtain ⟨rfl, rfl⟩ := hhere
    decide
  · have hrender : render ⟨root, names⟩ = root ++ String.intercalate "/" names := by
      rw [render, if_neg]
      simpa using hhere
    have hchars : (String.intercalate "/" names).toList = ['/'].intercalate (names.map String.toList) :=
      String.toList_intercalate
    rw [hrender, ofString, String.toList_append, hchars, rootOf_append hroot (takeWhile_slash hnames),
      names_append hroot, names_intercalate hnames]

theorem ofString_of_isName (h : IsName name) : ofString name = { names := [name] } := by
  have hrender := IsNormal.ofString_render (p := { names := [name] })
    ⟨.inl rfl, List.forall_mem_singleton.2 h⟩
  rwa [render, if_neg (by simp), String.empty_append, String.intercalate_singleton] at hrender

end Path

end ProtoIdl.Command
