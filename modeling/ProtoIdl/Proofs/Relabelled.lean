import ProtoIdl.Proofs.Recovered
import ProtoIdl.Proofs.Recovery.Labels
/-!
# Labels are source text

In the outline of a file that was read without values between curly brackets, the line of a statement
and that of an rpc without a body are source text: with a semicolon behind it the label is read by the
production of its kind, and what is read is the node again, at another place and without comments.
The label of a version is left out here, since it has no `=`. Main statement: `label_reread`.
-/
namespace ProtoIdl

open Grammar

/-- A reading that succeeds on the words of a text succeeds on the text. -/
theorem Reading.Reads.exists_ok {α : Type} {x : Reading α} {s rest : String} {P : α → Prop}
    (h : Reading.Reads x s P rest) (file : String) :
    ∃ a r, x (Reader.ofBytes (Utf8.encode s.toList) file) = .ok a r ∧ P a := by
  obtain ⟨a, _, r, hr, ha, -⟩ := Yields.exists_ok h file
  rw [spaced, String.intercalate_singleton] at hr
  exact ⟨a, r, hr, ha⟩

/-- The labels of statements, and of rpcs without a body, are read back as the same nodes, up to their
places and comments. -/
theorem label_reread {opts : Grammar.Options} {bytes : List UInt8} {file : String} {f : File}
    (hf : parse opts bytes file = .ok f) (hp : opts.permissive = false)
    (opts' : Grammar.Options) (file' : String) :
    (∀ s notes, f.Has (.element (.statement s notes)) → (∀ v, s ≠ .version v) → ∃ x r,
      production opts' s.production
        (Reader.ofBytes (Utf8.encode (View.statementLabel s ++ ";").toList) file') =
          .ok (.statement s { extent := x }) r) ∧
    (∀ a curly notes, f.Has (.element (.block (.rpc a) [] curly notes)) → ∃ b x r,
      production opts' .rpc
        (Reader.ofBytes (Utf8.encode (View.headLabel (.rpc a) ++ ";").toList) file') =
          .ok (.block (.rpc b) [] none { extent := x }) r ∧
        (Head.rpc b).erase = (Head.rpc a).erase) := by
  constructor
  · intro s notes hs hv
    have hlegible : s.Legible opts.permissive := parse_states hf hs
    rw [hp] at hlegible
    obtain ⟨_, r, hr, x, rfl⟩ := (statement_reads opts' (body opts') hlegible hv).exists_ok file'
    exact ⟨x, r, hr⟩
  · intro a curly notes ha
    have hhead : (Head.rpc a).isWellFormed = true := parse_states hf ha
    obtain ⟨_, r, hr, b, x, rfl, hb⟩ := (rpc_reads (body opts') hhead).exists_ok file'
    exact ⟨b, x, r, hr, hb⟩

/-- The statement and the head of the rpc that are the only elements of two blocks. -/
def soleParts (f : File) : Option (Statement × Rpc) :=
  match f.body with
  | [.block _ [.statement s _] _ _, .block _ [.block (.rpc a) [] _ _] _ _] => some (s, a)
  | _ => none

theorem exists_parts {f : File} {s : Statement} {a : Rpc} (h : soleParts f = some (s, a)) :
    ∃ notes curly notes', f.Has (.element (.statement s notes)) ∧
      f.Has (.element (.block (.rpc a) [] curly notes')) := by
  unfold soleParts at h
  split at h
  · next head s' notes curly n head' a' curly' notes' curly'' n' hbody =>
    obtain ⟨rfl, rfl⟩ := Prod.mk.inj (Option.some.inj h)
    have hsole {head : Head} {e : Element} {curly : Option Comment} {notes : Notes}
        (hb : .block head [e] curly notes ∈ f.body) : f.Has (.element e) :=
      .part (.top (List.mem_append_right _ hb)) (by simp [Node.parts, Element.parts])
    exact ⟨notes, curly', notes', hsole (hbody ▸ List.mem_cons_self),
      hsole (hbody ▸ List.mem_cons_of_mem _ List.mem_cons_self)⟩
  · cases h

/-- A hexadecimal number, a value with two signs, joined strings, and types with a dot in front. -/
def relabelledText : String :=
  "message M \x7b repeated . a.B c=0x1F[d=- -1,(g . h).i='s' \"t\"]; \x7d service S \x7b rpc R (stream .T) returns(U . V) \x7b\x7d\x7d"

theorem label_reread_sample : ∃ f s notes a curly notes',
    parse {} (Utf8.encode relabelledText.toList) "m.proto" = .ok f ∧
    f.Has (.element (.statement s notes)) ∧
    f.Has (.element (.block (.rpc a) [] curly notes')) ∧
    (∃ x r, production {} .field (Reader.ofBytes (Utf8.encode
      "repeated .a.B c = 0x1F [d = --1, (g.h).i = 'st'];".toList) "") =
        .ok (.statement s { extent := x }) r) ∧
    ∃ b x r, production {} .rpc (Reader.ofBytes (Utf8.encode
      "rpc R(stream .T) returns (U.V);".toList) "") =
        .ok (.block (.rpc b) [] none { extent := x }) r ∧ (Head.rpc b).erase = (Head.rpc a).erase := by
  have h : (parse {} (Utf8.encode relabelledText.toList) "m.proto").toOption.any (fun f =>
      (soleParts f).any fun p => p.1.production == .field &&
        View.statementLabel p.1 == "repeated .a.B c = 0x1F [d = --1, (g.h).i = 'st']" &&
          View.headLabel (.rpc p.2) == "rpc R(stream .T) returns (U.V)") = true := by
    decide +kernel
  obtain ⟨f, hf, hany⟩ := exists_ok h
  obtain ⟨⟨s, a⟩, hsole, heq⟩ := (Option.any_eq_true _ _).1 hany
  simp only [Bool.and_eq_true, beq_iff_eq] at heq
  obtain ⟨⟨hfield, hs⟩, ha⟩ := heq
  obtain ⟨notes, curly, notes', hstatement, hrpc⟩ := exists_parts hsole
  have hp : ({} : Grammar.Options).permissive = false := rfl
  have hv : ∀ v, s ≠ .version v := by
    rintro v rfl
    cases hfield
  have hreread := label_reread hf hp {} ""
  have hfirst := hreread.1 s notes hstatement hv
  have hsecond := hreread.2 a curly notes' hrpc
  rw [hfield, hs] at hfirst
  rw [ha] at hsecond
  exact ⟨f, s, notes, a, curly, notes', hf, hstatement, hrpc, hfirst, hsecond⟩

end ProtoIdl
