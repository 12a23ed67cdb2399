import ProtoIdl.Proofs.Tree.Walk
import ProtoIdl.Proofs.Tree.Tally
import ProtoIdl.Proofs.Proper
/-!
# What a walk over a file visits

A walk that skips nothing visits each place of a file once, in order: a declaration, its body, its
comments. Skipping kinds takes away what is below their declarations. As a file that is read has blocks
only where its view looks, the numbers of the summary are those of the view. Main statement:
`visits_of_file`.
-/
namespace ProtoIdl

open View

/-- The file as an element. -/
def File.element (f : File) : Element := .file f.version f.body

/-- The numbers of a summary are those of the view. -/
theorem File.count_eq {f : File} (h : Element.AllProper .file f.body) :
    ∃ v, View.ofFile f = .ok v ∧ ∀ kind ∈ summarized,
      count kind f = Nested.size ⟨v.messages, v.enums, v.services⟩ kind := by
  obtain ⟨n, hn, hcounts⟩ := nestedIn_counts .file (.inl rfl) f.body h
  refine ⟨_, by simp only [View.ofFile, hn, check_of_proper .file h]; rfl, fun kind hk => ?_⟩
  have hversion : visitsOf kind (visitVersion (fun _ => false) f.version) = 0 := by
    cases f.version with
    | none => rfl
    | some v =>
      rw [visitVersion, Option.toList_some, List.flatMap_singleton]
      exact visitsOf_statement hk (.version v.item) v.notes
  have hcount : count kind f = visitsOf kind (visitVersion (fun _ => false) f.version) +
      visitsOf kind (walkAll (fun _ => false) f.body) := visitsOf_append ..
  rw [hcount, hversion, hcounts.size kind hk, Nat.zero_add]

theorem summary_eq {f : File} {m e s r : Nat} (hm : count .message f = m) (he : count .enum f = e)
    (hs : count .service f = s) (hr : count .rpc f = r) :
    summary f = String.intercalate ", " [toString m ++ " message(s)", toString e ++ " enum(s)",
      toString s ++ " service(s)", toString r ++ " rpc(s)"] := by
  rw [summary, List.map_cons, List.map_cons, List.map_cons, List.map_cons, hm, he, hs, hr]
  simp only [String.append_assoc]
  rfl

/-- A walk over a file, whatever that holds, comes by places in order. A walk that skips nothing comes by
every place with a visit, once; one that skips more comes by the places that are not below a declaration
of a skipped kind. If the file was read, the numbers of the summary are those of what its view holds,
nested declarations included. -/
theorem visits_of_file (f : File) {S T : NodeKind → Bool} (hST : ∀ k, S k → T k) :
    (∀ skip, walkFile skip f = (trace skip f.element).map (·.visit) ∧ Ordered (trace skip f.element) ∧
      ((trace skip f.element).map (·.address)).Nodup) ∧
    (∀ a v, ⟨a, v⟩ ∈ trace (fun _ => false) f.element ↔ f.element.visitAt? a = some v) ∧
    (trace T f.element = (trace S f.element).filter fun x => !f.element.hides T x.address) ∧
    (walkFile T f).Sublist (walkFile S f) ∧
    ∀ opts bytes file, parse opts bytes file = .ok f → ∃ v, View.ofFile f = .ok v ∧
      count .message f = (allMessages v.messages).length ∧
      count .enum f = (allEnums v.enums v.messages).length ∧
      count .service f = v.services.length ∧ count .rpc f = (allRpcs v.services).length ∧
      summary f = String.intercalate ", " [toString (allMessages v.messages).length ++ " message(s)",
        toString (allEnums v.enums v.messages).length ++ " enum(s)",
        toString v.services.length ++ " service(s)",
        toString (allRpcs v.services).length ++ " rpc(s)"] := by
  have hskip : trace T f.element = shown T f.element (trace S f.element) := trace_skip hST f.element
  have hwalk (skip : NodeKind → Bool) : walkFile skip f = (trace skip f.element).map (·.visit) :=
    (map_visit_trace skip f.element).symm
  refine ⟨fun skip => ⟨hwalk skip, trace_ordered skip f.element, (trace_ordered skip f.element).nodup⟩,
    mem_trace f.element, hskip, ?_, fun opts bytes file hf => ?_⟩
  · rw [hwalk, hwalk, hskip]
    exact List.filter_sublist.map _
  · obtain ⟨v, hv, hsize⟩ := File.count_eq (parse_allProper hf)
    have hm := hsize .message (by decide)
    have he := hsize .enum (by decide)
    have hs := hsize .service (by decide)
    have hr := hsize .rpc (by decide)
    exact ⟨v, hv, hm, he, hs, hr, summary_eq hm he hs hr⟩

/-- A message with one nested in it, and in that one an enum. Below messages all is skipped. -/
theorem visits_of_file_sample : ∃ f, parse {} (Utf8.encode
      ("message A \x7b // a\n message B \x7b enum E \x7b Z = 0; \x7d \x7d \x7d // b\n" ++
        "service S \x7b rpc R (A) returns (B); \x7d").toList) "a.proto" = .ok f ∧
    (trace (· == .message) f.element).map (·.visit) = [⟨.message, "A"⟩, ⟨.service, "S"⟩, ⟨.rpc, "R"⟩] ∧
    (walkFile (· == .message) f).Sublist (walkFile (fun _ => false) f) ∧
    ⟨[.element 0, .behindCurly], ⟨.comment, "// a"⟩⟩ ∈ trace (fun _ => false) f.element ∧
    ∃ v, View.ofFile f = .ok v ∧ v.messages.length = 1 ∧ v.enums.length = 0 ∧
      (allMessages v.messages).length = 2 ∧ (allEnums v.enums v.messages).length = 1 ∧
      summary f = "2 message(s), 1 enum(s), 1 service(s), 1 rpc(s)" := by
  have h : (parse {} (Utf8.encode
      ("message A \x7b // a\n message B \x7b enum E \x7b Z = 0; \x7d \x7d \x7d // b\n" ++
        "service S \x7b rpc R (A) returns (B); \x7d").toList) "a.proto").toOption.any (fun f =>
      decide (walkFile (· == .message) f = [⟨.message, "A"⟩, ⟨.service, "S"⟩, ⟨.rpc, "R"⟩]) &&
        (decide (f.element.visitAt? [.element 0, .behindCurly] = some ⟨.comment, "// a"⟩) &&
          (decide ((View.ofFile f).toOption.map (fun v => (v.messages.length, v.enums.length)) =
            some (1, 0)) && decide (summarized.map (count · f) = [2, 1, 1, 1])))) = true := by
    decide +kernel
  obtain ⟨f, hf, h⟩ := exists_ok h
  simp only [Bool.and_eq_true, decide_eq_true_eq] at h
  obtain ⟨hwalk, hplace, hlengths, hcounts⟩ := h
  obtain ⟨hevents, hmem, -, hsub, hview⟩ :=
    visits_of_file f (S := fun _ => false) (T := (· == .message)) nofun
  obtain ⟨v, hv, hm, he, hs, hr, hsummary⟩ := hview {} _ "a.proto" hf
  simp only [hv, Except.toOption, Option.map_some, Option.some.injEq, Prod.mk.injEq] at hlengths
  simp only [summarized, List.map_cons, List.map_nil, hm, he, hs, hr, List.cons.injEq, and_true] at hcounts
  obtain ⟨hm', he', hs', hr'⟩ := hcounts
  rw [hm', he', hs', hr'] at hsummary
  exact ⟨f, hf, (hevents _).1.symm.trans hwalk, hsub, (hmem _ _).2 hplace, v, hv, hlengths.1, hlengths.2,
    hm', he', hsummary.trans (by decide)⟩

end ProtoIdl
