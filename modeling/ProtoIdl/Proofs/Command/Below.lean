import ProtoIdl.Command.Directory
import ProtoIdl.Proofs.Command.Spelling
import Mathlib.Data.List.Sort
import Mathlib.Data.String.Basic
/-!
# What is below a directory

`Entry.Below` says which entry stands at the end of some names. The entries that are found below a
directory are those with a source name, files or not (`mem_sources`), in the order of their paths and
each once (`sources_pairwise`); each is what its path names (`find_below`).
-/
namespace ProtoIdl.Command

namespace Path

/-- The path behind further names. -/
def descend (p : Path) (names : List String) : Path := { p with names := p.names ++ names }

theorem descend_child (p : Path) (name : String) (names : List String) :
    (p.child name).descend names = p.descend (name :: names) := by
  rw [descend, descend, child, List.append_assoc, List.singleton_append]

namespace IsNormal

variable {p q : Path} {names names' : List String} {name : String}

theorem render_inj (hp : p.IsNormal) (hq : q.IsNormal) (h : p.render = q.render) : p = q := by
  rw [← hp.ofString_render, ← hq.ofString_render, h]

theorem descend (hp : p.IsNormal) (h : ∀ n ∈ names, IsName n) : (p.descend names).IsNormal :=
  ⟨hp.root, List.forall_mem_append.2 ⟨hp.names, h⟩⟩

/-- Different names below a path are written differently. -/
theorem descend_inj (hp : p.IsNormal) (h : ∀ n ∈ names, IsName n) (h' : ∀ n ∈ names', IsName n)
    (heq : (p.descend names).render = (p.descend names').render) : names = names' := by
  have hpath := (hp.descend h).render_inj (hp.descend h') heq
  exact List.append_cancel_left (congrArg Path.names hpath)

theorem child (hp : p.IsNormal) (hname : IsName name) : (p.child name).IsNormal :=
  hp.descend (List.forall_mem_singleton.2 hname)

end IsNormal

end Path

namespace Entry

/-- What stands below an entry at the end of some names. -/
inductive Below : Entry → List String → Entry → Prop
  | here (e : Entry) : Below e [] e
  | step {entries : List (String × Entry)} {name : String} {child e : Entry} {names : List String}
    (hmem : (name, child) ∈ entries) (h : Below child names e) : Below (.directory entries) (name :: names) e

/-- In every directory below, the names are names, and no two are the same. -/
def WellNamed (e : Entry) : Prop := ∀ names entries, e.Below names (.directory entries) →
  (entries.map (·.1)).Nodup ∧ ∀ x ∈ entries, IsName x.1 ∧ x.1 ≠ ".."

/-- The last of the names is that of a source file. -/
def EndsInSource (names : List String) : Prop := ∃ name, names.getLast? = some name ∧ isSourceName name

variable {list : List (String × Entry)} {e x : Entry} {name : String} {names : List String} {p : Path}

/-- Below what is no directory is nothing but itself. -/
theorem below_leaf_iff (h : ∀ entries, e ≠ .directory entries) :
    Below e names x ↔ names = [] ∧ x = e := by
  constructor
  · rintro (_ | ⟨hmem, -⟩)
    · exact ⟨rfl, rfl⟩
    · exact absurd rfl (h _)
  · rintro ⟨rfl, rfl⟩
    exact .here _

theorem below_nil_iff : Below e [] x ↔ x = e := by
  constructor
  · rintro ⟨⟩
    rfl
  · rintro rfl
    exact .here _

theorem below_cons_iff : Below (.directory list) (name :: names) x ↔
    ∃ child, (name, child) ∈ list ∧ Below child names x := by
  constructor
  · rintro ⟨⟩
    exact ⟨_, ‹_›, ‹_›⟩
  · rintro ⟨child, hmem, h⟩
    exact .step hmem h

theorem WellNamed.child (h : (Entry.directory list).WellNamed) {child : Entry}
    (hmem : (name, child) ∈ list) : child.WellNamed :=
  fun names inner hbelow => h (name :: names) inner (.step hmem hbelow)

theorem WellNamed.entries (h : (Entry.directory list).WellNamed) :
    (list.map (·.1)).Nodup ∧ ∀ x ∈ list, IsName x.1 ∧ x.1 ≠ ".." := h [] list (.here _)

theorem wellNamed_leaf (h : ∀ entries, e ≠ .directory entries) : e.WellNamed := by
  intro names entries hbelow
  exact absurd ((below_leaf_iff h).1 hbelow).2.symm (h entries)

theorem wellNamed_directory (hnodup : (list.map (·.1)).Nodup)
    (hnames : ∀ x ∈ list, IsName x.1 ∧ x.1 ≠ "..") (hall : ∀ x ∈ list, x.2.WellNamed) :
    (Entry.directory list).WellNamed := by
  intro names entries h
  cases names with
  | nil =>
    obtain rfl := Entry.directory.inj (below_nil_iff.1 h)
    exact ⟨hnodup, hnames⟩
  | cons name names =>
    obtain ⟨child, hmem, hchild⟩ := below_cons_iff.1 h
    exact hall _ hmem names entries hchild

/-- The names that lead down are names. -/
theorem WellNamed.isName (h : e.WellNamed) (hx : Below e names x) : ∀ n ∈ names, IsName n ∧ n ≠ ".." := by
  induction hx with
  | here e => nofun
  | step hmem _ ih => exact List.forall_mem_cons.2 ⟨h.entries.2 _ hmem, ih (h.child hmem)⟩

/-! ## Following a path down -/

theorem lookup_of_mem {α : Type} {l : List (String × α)} {a : α} (hnodup : (l.map (·.1)).Nodup)
    (hmem : (name, a) ∈ l) : l.lookup name = some a := by
  obtain ⟨before, behind, rfl⟩ := List.append_of_mem hmem
  refine List.lookup_eq_some_iff.2 ⟨before, behind, rfl, fun x hx => ?_⟩
  rw [List.map_append, List.nodup_append'] at hnodup
  rw [bne_iff_ne]
  rintro rfl
  exact hnodup.2.2 (List.mem_map_of_mem hx) List.mem_cons_self

theorem follow_child {rest : List String} (hname : name ≠ "..") (hx : list.lookup name = some x)
    (above : List Entry) :
    follow above (.directory list) (name :: rest) = follow (.directory list :: above) x rest := by
  rw [follow.eq_def]
  simp only [hname, ↓reduceIte, child?, hx]

theorem follow_below (h : e.WellNamed) (hx : Below e names x) (above : List Entry) :
    follow above e names = .ok x := by
  induction hx generalizing above with
  | here e => cases e <;> rfl
  | step hmem _ ih =>
    obtain ⟨hnodup, hnames⟩ := h.entries
    rw [follow_child (hnames _ hmem).2 (lookup_of_mem hnodup hmem)]
    exact ih (h.child hmem) _

/-- What further names lead to depends on what the first ones lead to. -/
theorem follow_append {above : List Entry} {here : Entry} {first : List String}
    (h : follow above here first = .ok e) :
    ∃ above', ∀ rest, follow above here (first ++ rest) = follow above' e rest := by
  fun_induction follow above here first with
  | case1 above here =>
    obtain rfl := Except.ok.inj h
    exact ⟨above, fun rest => rfl⟩
  | case2 entries first ih => exact ih h
  | case3 entries first parent above ih => exact ih h
  | case4 | case6 => cases h
  | case5 above entries name first hname next hnext ih =>
    obtain ⟨above', hrest⟩ := ih h
    refine ⟨above', fun rest => ?_⟩
    rw [List.cons_append, follow_child hname hnext, hrest rest]

/-- A path names what stands below the entry that its first names lead to. -/
theorem find_below {t : FileTree} (hp : t.find p = .ok e) (h : e.WellNamed) (hx : Below e names x) :
    t.find (p.descend names) = .ok x := by
  have hnames : (if p.root = "" then t.here ++ (p.names ++ names) else p.names ++ names) =
      (if p.root = "" then t.here ++ p.names else p.names) ++ names := by
    split
    · rw [List.append_assoc]
    · rfl
  obtain ⟨above, hrest⟩ := follow_append hp
  rw [FileTree.find, Path.descend, hnames, hrest]
  exact follow_below h hx above

/-! ## The entries that are found -/

/-- A path is found for an entry below. -/
def Found (p : Path) (e : Entry) (y : String × Entry) : Prop :=
  ∃ names, EndsInSource names ∧ Below e names y.2 ∧ (p.descend names).render = y.1

theorem endsInSource_cons : EndsInSource (name :: names) ↔
    names = [] ∧ isSourceName name ∨ EndsInSource names := by
  unfold EndsInSource
  cases names with
  | nil => simp
  | cons next rest => simp [List.getLast?_cons_cons]

/-- What is found below an entry of a directory: the entry itself, or something below it. -/
theorem found_child {y : String × Entry} :
    (∃ names, EndsInSource (name :: names) ∧ Below e names y.2 ∧ (p.descend (name :: names)).render = y.1) ↔
      y ∈ (if isSourceName name then [((p.child name).render, e)] else []) ∨ Found (p.child name) e y := by
  constructor
  · rintro ⟨names, hsource, hy, hpath⟩
    rcases endsInSource_cons.1 hsource with ⟨rfl, hname⟩ | hsource
    · rw [if_pos hname]
      exact .inl (List.mem_singleton.2 (Prod.ext hpath.symm (below_nil_iff.1 hy)))
    · exact .inr ⟨names, hsource, hy, by rw [Path.descend_child]; exact hpath⟩
  · rintro (hy | ⟨names, hsource, hy, hpath⟩)
    · split at hy
      · next hname =>
        obtain rfl := List.mem_singleton.1 hy
        exact ⟨[], endsInSource_cons.2 (.inl ⟨rfl, hname⟩), .here e, rfl⟩
      · cases hy
    · exact ⟨names, endsInSource_cons.2 (.inr hsource), hy, by rw [← Path.descend_child]; exact hpath⟩

theorem not_found_leaf {y : String × Entry} (h : ∀ entries, e ≠ .directory entries) :
    ¬ Found p e y := by
  rintro ⟨names, ⟨name, hlast, -⟩, hy, -⟩
  rw [((below_leaf_iff h).1 hy).1] at hlast
  cases hlast

mutual
/-- Found are the entries below with a source name. -/
theorem mem_sourcesBelow (p : Path) : (e : Entry) → (y : String × Entry) →
    (y ∈ sourcesBelow p e ↔ Found p e y)
  | .file bytes, y => ⟨nofun, fun h => absurd h (not_found_leaf nofun)⟩
  | .unreadable fault, y => ⟨nofun, fun h => absurd h (not_found_leaf nofun)⟩
  | .directory entries, y => by
    rw [sourcesBelow, mem_sourcesAmong p entries y]
    constructor
    · rintro ⟨name, child, names, hmem, hsource, hy, hpath⟩
      exact ⟨name :: names, hsource, .step hmem hy, hpath⟩
    · rintro ⟨names, hsource, hy, hpath⟩
      cases names with
      | nil =>
        obtain ⟨name, hlast, -⟩ := hsource
        cases hlast
      | cons name names =>
        obtain ⟨child, hmem, hy⟩ := below_cons_iff.1 hy
        exact ⟨name, child, names, hmem, hsource, hy, hpath⟩

theorem mem_sourcesAmong (p : Path) : (entries : List (String × Entry)) → (y : String × Entry) →
    (y ∈ sourcesAmong p entries ↔ ∃ name child names, (name, child) ∈ entries ∧
      EndsInSource (name :: names) ∧ Below child names y.2 ∧ (p.descend (name :: names)).render = y.1)
  | [], y => by simp [sourcesAmong]
  | (name, e) :: rest, y => by
    rw [sourcesAmong, List.mem_append, List.mem_append, mem_sourcesBelow (p.child name) e y,
      mem_sourcesAmong p rest y, ← found_child]
    constructor
    · rintro (⟨names, h⟩ | ⟨name', child, names, hmem, h⟩)
      · exact ⟨name, e, names, List.mem_cons_self, h⟩
      · exact ⟨name', child, names, List.mem_cons_of_mem _ hmem, h⟩
    · rintro ⟨name', child, names, hmem, h⟩
      rcases List.mem_cons.1 hmem with heq | hmem
      · obtain ⟨rfl, rfl⟩ := Prod.mk.inj heq
        exact .inl ⟨names, h⟩
      · exact .inr ⟨name', child, names, hmem, h⟩
end

/-! ## Each once, in order -/

/-- What is found below a path is not found at it. -/
theorem not_mem_sourcesBelow (hp : p.IsNormal) (he : e.WellNamed) :
    p.render ∉ (sourcesBelow p e).map (·.1) := by
  rw [List.mem_map]
  rintro ⟨y, hy, hpath⟩
  obtain ⟨names, ⟨name, hlast, -⟩, hbelow, hrender⟩ := (mem_sourcesBelow p e y).1 hy
  have hnil : names = [] := by
    refine hp.descend_inj (fun n hn => (he.isName hbelow n hn).1) nofun ?_
    rw [hrender, hpath, Path.descend, List.append_nil]
  rw [hnil] at hlast
  cases hlast

theorem not_mem_sourcesAmong {rest : List (String × Entry)} (hp : p.IsNormal) (hname : IsName name)
    (hnew : name ∉ rest.map (·.1)) (hrest : ∀ x ∈ rest, IsName x.1 ∧ x.2.WellNamed)
    (hnames : ∀ n ∈ names, IsName n) :
    (p.descend (name :: names)).render ∉ (sourcesAmong p rest).map (·.1) := by
  rw [List.mem_map]
  rintro ⟨y, hy, hpath⟩
  obtain ⟨other, child, others, hmem, -, hbelow, hrender⟩ := (mem_sourcesAmong p rest y).1 hy
  obtain ⟨hother, hchild⟩ := hrest _ hmem
  have heq := hp.descend_inj (List.forall_mem_cons.2 ⟨hname, hnames⟩)
    (List.forall_mem_cons.2 ⟨hother, fun n hn => (hchild.isName hbelow n hn).1⟩)
    (hpath.symm.trans hrender.symm)
  exact hnew ((List.cons.inj heq).1 ▸ List.mem_map.2 ⟨_, hmem, rfl⟩)

mutual
/-- No path is found twice. -/
theorem nodup_sourcesBelow {p : Path} (hp : p.IsNormal) : (e : Entry) → e.WellNamed →
    ((sourcesBelow p e).map (·.1)).Nodup
  | .file bytes, _ | .unreadable fault, _ => .nil
  | .directory entries, h => by
    rw [sourcesBelow]
    exact nodup_sourcesAmong hp entries h.entries.1 fun x hx => ⟨(h.entries.2 x hx).1, h.child hx⟩

theorem nodup_sourcesAmong {p : Path} (hp : p.IsNormal) : (entries : List (String × Entry)) →
    (entries.map (·.1)).Nodup → (∀ x ∈ entries, IsName x.1 ∧ x.2.WellNamed) →
      ((sourcesAmong p entries).map (·.1)).Nodup
  | [], _, _ => .nil
  | (name, e) :: rest, hnodup, hall => by
    obtain ⟨⟨hname, he⟩, hrest⟩ := List.forall_mem_cons.1 hall
    obtain ⟨hnew, hrestnodup⟩ := List.nodup_cons.1 hnodup
    have hchild := hp.child hname
    rw [sourcesAmong, List.map_append]
    refine List.nodup_append'.2 ⟨?_, nodup_sourcesAmong hp rest hrestnodup hrest, ?_⟩
    · have hbelow := nodup_sourcesBelow hchild e he
      split
      · exact List.nodup_cons.2 ⟨not_mem_sourcesBelow hchild he, hbelow⟩
      · exact hbelow
    · rintro path hpath
      obtain ⟨y, hy, rfl⟩ := List.mem_map.1 hpath
      rw [List.mem_append, mem_sourcesBelow, ← found_child] at hy
      obtain ⟨names, -, hbelow, hrender⟩ := hy
      rw [← hrender]
      exact not_mem_sourcesAmong hp hname hnew hrest fun n hn => (he.isName hbelow n hn).1
end

/-- Sorting is by insertion. -/
theorem sortByPath_eq (ys : List (String × Entry)) :
    sortByPath ys = ys.insertionSort fun a b => a.1 ≤ b.1 := by
  have hinsert (x : String × Entry) (ys : List (String × Entry)) :
      insertByPath x ys = ys.orderedInsert (fun a b => a.1 ≤ b.1) x := by
    induction ys with
    | nil => rfl
    | cons y rest ih =>
      rw [insertByPath, List.orderedInsert_cons, ih]
      by_cases h : y.1 < x.1
      · rw [if_pos h, if_neg (not_le.2 h)]
      · rw [if_neg h, if_pos (not_lt.1 h)]
  induction ys with
  | nil => rfl
  | cons y rest ih =>
    rw [sortByPath, List.foldr_cons, ← sortByPath, ih, hinsert]
    rfl

theorem mem_sources {y : String × Entry} : y ∈ sources p e ↔ Found p e y := by
  rw [sources, sortByPath_eq, List.mem_insertionSort, mem_sourcesBelow]

/-- The paths that are found are in order, and no path is found twice. -/
theorem sources_pairwise (hp : p.IsNormal) (he : e.WellNamed) :
    (sources p e).Pairwise fun a b => a.1 < b.1 := by
  have htotal : Std.Total fun a b : String × Entry => a.1 ≤ b.1 := ⟨fun a b => le_total a.1 b.1⟩
  have htrans : IsTrans (String × Entry) fun a b => a.1 ≤ b.1 := ⟨fun _ _ _ => le_trans⟩
  have hsorted := List.pairwise_insertionSort (fun a b : String × Entry => a.1 ≤ b.1) (sourcesBelow p e)
  have hperm := List.perm_insertionSort (fun a b : String × Entry => a.1 ≤ b.1) (sourcesBelow p e)
  rw [← sortByPath_eq] at hsorted hperm
  have hnodup : ((sources p e).map (·.1)).Nodup :=
    (hperm.map (·.1)).nodup_iff.2 (nodup_sourcesBelow hp e he)
  have hdistinct : (sources p e).Pairwise fun a b => a.1 ≠ b.1 := List.pairwise_map.1 hnodup
  exact (hsorted.and hdistinct).imp fun h => lt_of_le_of_ne h.1 h.2

end Entry

end ProtoIdl.Command
