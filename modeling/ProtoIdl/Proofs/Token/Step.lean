import ProtoIdl.Proofs.Text.Place
import ProtoIdl.Token.Scan
/-!
# What a scanning step ends in

`Scan.Ends x c Q E` says of the step `x` begun at the cursor `c`: if it succeeds, `Q` holds of its
answer and of the cursor it leaves, and if it fails, `E` holds of its error. The error of every
step of this library is `Cursor.Faulty`: it is the fault of the octets and stands at their end, so a
text without a fault makes no step fail.
-/
namespace ProtoIdl

/-- The error of looking at the ill-formed octets behind a text. -/
def Cursor.Faulty (c : Cursor) (e : LexicalError) : Prop :=
  ∃ fault, c.ending = some fault ∧ e = ⟨.illFormed fault, c.atEnd.position⟩

namespace Cursor

variable {c d : Cursor}

/-- The end of a text is the same from everywhere in it. -/
theorem Reaches.atEnd_eq : c.Reaches d → d.atEnd = c.atEnd
  | ⟨n, h⟩ => by
    rw [h, atEnd, rest_advance, ← advance_add, atEnd, advance, advance]
    simp only [List.length_drop, mk.injEq, true_and]
    by_cases hn : n ≤ c.rest.length
    · rw [Nat.add_sub_cancel' hn]
      simp
    · rw [List.drop_of_length_le (by omega), List.drop_of_length_le (by omega),
        List.take_of_length_le (by omega), List.take_of_length_le (by omega)]
      simp

theorem Faulty.of_reaches {e : LexicalError} (h : c.Reaches d) : d.Faulty e → c.Faulty e
  | ⟨fault, hf, he⟩ => ⟨fault, by rw [← h.ending_eq, hf], by rw [he, h.atEnd_eq]⟩

theorem Faulty.reaches {e : LexicalError} : c.Faulty e → ∃ d, c.Reaches d ∧ d.position = e.position
  | ⟨_, _, he⟩ => ⟨c.atEnd, reaches_atEnd c, by rw [he]⟩

theorem not_faulty {e : LexicalError} (h : c.ending = none) : ¬ c.Faulty e
  | ⟨_, hf, _⟩ => by simp [h] at hf

/-- Looking at the next character fails only at the end of the text, for the fault behind it. -/
theorem peek_cases (c : Cursor) :
    c.peek = .ok c.rest.head? ∨ ∃ e, c.peek = .error e ∧ c.Faulty e := by
  obtain ⟨rest, ending, position⟩ := c
  cases rest with
  | cons char rest => exact .inl rfl
  | nil =>
    cases ending with
    | none => exact .inl rfl
    | some fault => exact .inr ⟨_, rfl, fault, rfl, by simp [atEnd, advance]⟩

theorem peek_of_rest {char : Char} {rest : List Char} (h : c.rest = char :: rest) :
    c.peek = .ok (some char) := by
  simp only [peek, h]

end Cursor

namespace Scan

variable {α β : Type}

/-! ## Running a step -/

section
variable {x : Scan α} {f : α → Scan β} {a : α} {c d : Cursor} {e : LexicalError}

theorem run_pure (a : α) (c : Cursor) : (pure a : Scan α) c = .ok (a, c) := rfl

theorem run_bind (h : x c = .ok (a, d)) : (x >>= f) c = f a d := by
  simp only [bind, StateT.bind, Except.bind, h]

theorem run_bind_error (h : x c = .error e) : (x >>= f) c = .error e := by
  simp only [bind, StateT.bind, Except.bind, h]

theorem run_here (c : Cursor) : here c = .ok (c.position, c) := rfl

theorem run_skip (n : Nat) (c : Cursor) : skip n c = .ok ((), c.advance n) := rfl

theorem run_peek {o : Option Char} (h : c.peek = .ok o) : peek c = .ok (o, c) := by
  simp only [peek, bind, Except.bind, pure, Except.pure, h]

theorem run_peek_error (h : c.peek = .error e) : peek c = .error e := by
  simp only [peek, bind, Except.bind, h]

end

/-! ## What a step ends in -/

/-- The answer and the cursor left satisfy `Q`, or the error satisfies `E`. -/
def Ends (x : Scan α) (c : Cursor) (Q : α → Cursor → Prop) (E : LexicalError → Prop) : Prop :=
  match x c with
  | .ok (a, d) => Q a d
  | .error e => E e

section
variable {x : Scan α} {c : Cursor} {Q P : α → Cursor → Prop} {E : LexicalError → Prop}

theorem Ends.mono (h : Ends x c P E) (hq : ∀ a d, P a d → Q a d) : Ends x c Q E := by
  unfold Ends at *
  split
  · next a d hx => exact hq a d (by simpa [hx] using h)
  · next e hx => simpa [hx] using h

theorem Ends.mono_error {E' : LexicalError → Prop} (h : Ends x c Q E')
    (he : ∀ {e}, E' e → E e) : Ends x c Q E := by
  unfold Ends at *
  split
  · next a d hx => simpa [hx] using h
  · next e hx => exact he (by simpa [hx] using h)

theorem Ends.bind {f : α → Scan β} {Q : β → Cursor → Prop} (h : Ends x c P E)
    (hf : ∀ a d, P a d → Ends (f a) d Q E) : Ends (x >>= f) c Q E := by
  unfold Ends at h
  change match (x c).bind (fun p => f p.1 p.2) with | .ok (a, d) => Q a d | .error e => E e
  split at h
  · next a d hx => simpa [hx, Except.bind, Ends] using hf a d h
  · next e hx => simpa [hx, Except.bind] using h

theorem ends_pure {a : α} (h : Q a c) : Ends (pure a) c Q E := h

theorem Ends.ok {a : α} {d : Cursor} (h : Ends x c Q E) (hx : x c = .ok (a, d)) : Q a d := by
  simpa [Ends, hx] using h

theorem Ends.error {e : LexicalError} (h : Ends x c Q E) (hx : x c = .error e) : E e := by
  simpa [Ends, hx] using h

/-- A step whose errors are impossible succeeds. -/
theorem Ends.exists_ok (h : Ends x c Q E) (he : ∀ e, ¬ E e) : ∃ a d, x c = .ok (a, d) ∧ Q a d := by
  unfold Ends at h
  split at h
  · next a d hx => exact ⟨a, d, hx, h⟩
  · next e hx => exact absurd h (he e)

end

/-! ## The primitive steps -/

section
variable {c : Cursor} (p : Char → Bool)

theorem here_ends {E : LexicalError → Prop} :
    Ends here c (fun a d => a = c.position ∧ d = c) E := ⟨rfl, rfl⟩

theorem peek_ends : Ends peek c (fun a d => a = c.rest.head? ∧ d = c) c.Faulty := by
  rcases c.peek_cases with h | ⟨e, h, he⟩
  · simp [Ends, peek, h]
  · simpa [Ends, peek, h] using he

theorem skip_ends (n : Nat) {E : LexicalError → Prop} :
    Ends (skip n) c (fun _ d => d = c.advance n) E := rfl

theorem peekSecond_ends :
    Ends peekSecond c (fun a d => a = (c.rest.drop 1).head? ∧ d = c) c.Faulty := by
  rcases (c.advance 1).peek_cases with h | ⟨e, h, he⟩
  · simp [Ends, peekSecond, h]
  · simpa [Ends, peekSecond, h] using he.of_reaches (c.reaches_advance 1)

theorem run_ends : Ends (run p) c
    (fun a d => a = c.rest.takeWhile p ∧ d = c.advance a.length) c.Faulty := by
  rcases (c.advance (c.rest.takeWhile p).length).peek_cases with h | ⟨e, h, he⟩
  · simp [Ends, run, h]
  · simpa [Ends, run, h] using he.of_reaches (c.reaches_advance _)

theorem upTo_ends (n : Nat) : Ends (upTo n p) c
    (fun a d => d = c.advance a.length ∧ a <+: c.rest ∧ a.length ≤ n ∧ ∀ x ∈ a, p x = true)
    c.Faulty := by
  induction n generalizing c with
  | zero => exact ends_pure ⟨by simp, by simp, by simp, by simp⟩
  | succ n ih =>
    refine peek_ends.bind ?_
    rintro _ c ⟨rfl, rfl⟩
    rcases hc : c.rest with _ | ⟨x, rest⟩
    · exact ends_pure ⟨by simp, by simp, by simp, by simp⟩
    · simp only [List.head?_cons]
      by_cases hx : p x = true
      · rw [if_pos hx]
        refine (skip_ends 1).bind ?_
        rintro _ _ rfl
        refine (ih.mono_error (Cursor.Faulty.of_reaches (c.reaches_advance 1))).bind ?_
        rintro a _ ⟨rfl, ha, hn, hp⟩
        rw [Cursor.rest_advance, hc, List.drop_one, List.tail_cons] at ha
        refine ends_pure ⟨?_, List.cons_prefix_cons.2 ⟨rfl, ha⟩, by simpa using hn, ?_⟩
        · rw [List.length_cons, Nat.add_comm, Cursor.advance_add]
        · simpa [hx] using hp
      · rw [if_neg hx]
        exact ends_pure ⟨by simp, by simp, by simp, by simp⟩

end

end Scan

end ProtoIdl
