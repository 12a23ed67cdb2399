import ProtoIdl.Proofs.Token.Lookahead
import ProtoIdl.Proofs.Token.Seam
import ProtoIdl.Proofs.Token.Legible
/-!
# Where tokens stop

Declarations end with a semicolon or a curly bracket: a stop. A word or a number is written as it
stands in the text, and no stop is in it (`Scan.token_over`); a stop is a token by itself under every
mode (`Scan.token_stop`). So of all tokens only a string and a comment can reach over a stop.
-/
namespace ProtoIdl

/-- From `c` to `d` the characters `cs` were read, and no stop is among them. -/
def Cursor.Over (cs : List Char) (c d : Cursor) : Prop :=
  cs <+: c.rest ∧ d = c.advance cs.length ∧ ∀ x ∈ cs, Seam.isStop x = false

namespace Cursor.Over

variable {c d e : Cursor} {cs ds : List Char}

theorem nil (c : Cursor) : Over [] c c := ⟨List.nil_prefix, c.advance_zero.symm, by simp⟩

theorem append (h : Over cs c d) (h' : Over ds d e) : Over (cs ++ ds) c e := by
  obtain ⟨⟨rest, hrest⟩, rfl, hcs⟩ := h
  obtain ⟨hpre, rfl, hds⟩ := h'
  refine ⟨?_, ?_, List.forall_mem_append.2 ⟨hcs, hds⟩⟩
  · rw [Cursor.rest_advance, ← hrest, List.drop_left] at hpre
    rw [← hrest]
    exact (List.prefix_append_right_inj cs).2 hpre
  · rw [List.length_append, Cursor.advance_add]

theorem cons {x : Char} {more : List Char} (hc : c.rest = x :: more) (hx : Seam.isStop x = false) :
    Over [x] c (c.advance 1) :=
  ⟨⟨more, hc.symm⟩, rfl, by simpa using hx⟩

end Cursor.Over

namespace Scan

open Seam (isStop)
open Text (isDigit isHexDigit isIdentStart isIdentChar)

/-- A class of characters without the two stops. -/
theorem isStop_eq_false {p : Char → Bool} {x : Char} (hp : p ';' = false ∧ p '}' = false)
    (hx : p x = true) : isStop x = false := by
  cases hs : isStop x with
  | false => rfl
  | true =>
    simp only [isStop, Bool.or_eq_true, beq_iff_eq] at hs
    rcases hs with rfl | rfl
    · exact absurd hx (by rw [hp.1]; nofun)
    · exact absurd hx (by rw [hp.2]; nofun)

/-- The token read from `c` on is written as `chars`, which was read before, and what is read from
there on; no stop is in that. -/
def Adds (chars : List Char) (x : Scan Token) (c : Cursor) : Prop :=
  Ends x c (fun t d => ∃ cs, t.text = String.ofList (chars ++ cs) ∧ c.Over cs d) fun _ => True

variable {chars : List Char} {c : Cursor} {start : Position}

/-! ## Rules -/

theorem adds_pure {t : Token} (h : t.text = String.ofList chars) : Adds chars (pure t) c :=
  ends_pure ⟨[], by rwa [List.append_nil], .nil c⟩

/-- What is read first belongs to what was read before. -/
theorem adds_bind {α : Type} {x : Scan α} {f : α → Scan Token} (read : α → List Char)
    (hx : Ends x c (fun a d => c.Over (read a) d) fun _ => True)
    (hf : ∀ a d, Adds (chars ++ read a) (f a) d) : Adds chars (x >>= f) c := by
  refine hx.bind fun a d had => (hf a d).mono ?_
  rintro t e ⟨cs, ht, hde⟩
  exact ⟨read a ++ cs, by rw [ht, List.append_assoc], had.append hde⟩

theorem adds_run_bind {p : Char → Bool} {f : List Char → Scan Token}
    (hp : p ';' = false ∧ p '}' = false) (hf : ∀ cs d, Adds (chars ++ cs) (f cs) d) :
    Adds chars (run p >>= f) c := by
  refine adds_bind id (((run_ends p).mono ?_).mono_error fun _ => trivial) hf
  rintro _ _ ⟨rfl, rfl⟩
  exact ⟨List.takeWhile_prefix p, rfl, fun x hx =>
    isStop_eq_false hp (List.all_eq_true.1 List.all_takeWhile x hx)⟩

theorem adds_upTo_bind {n : Nat} {p : Char → Bool} {f : List Char → Scan Token}
    (hp : p ';' = false ∧ p '}' = false) (hf : ∀ cs d, Adds (chars ++ cs) (f cs) d) :
    Adds chars (upTo n p >>= f) c := by
  refine adds_bind id (((upTo_ends p n).mono ?_).mono_error fun _ => trivial) hf
  rintro cs _ ⟨rfl, hpre, -, hall⟩
  exact ⟨hpre, rfl, fun x hx => isStop_eq_false hp (hall x hx)⟩

theorem adds_peek_bind {f : Option Char → Scan Token} (hf : Adds chars (f c.rest.head?) c) :
    Adds chars (peek >>= f) c := by
  refine (peek_ends.mono_error fun _ => trivial).bind ?_
  rintro _ _ ⟨rfl, rfl⟩
  exact hf

theorem adds_skip_bind {x : Char} {f : Unit → Scan Token} (hc : c.rest.head? = some x)
    (hx : isStop x = false) (hf : ∀ d, Adds (chars ++ [x]) (f ()) d) :
    Adds chars (skip 1 >>= f) c := by
  obtain ⟨more, hr⟩ := List.head?_eq_some_iff.1 hc
  refine adds_bind (fun _ => [x]) ((skip_ends 1).mono ?_) fun _ d => hf d
  rintro _ _ rfl
  exact .cons hr hx

/-! ## Numbers -/

theorem adds_malformedNumber : Adds chars (malformedNumber chars start) c :=
  adds_run_bind (by decide) fun _ _ => adds_pure rfl

theorem adds_completeNumber (kind : Kind) : Adds chars (completeNumber kind chars start) c := by
  refine adds_peek_bind ?_
  split
  · split
    · exact adds_malformedNumber
    · exact adds_pure rfl
  · exact adds_pure rfl

theorem adds_exponent (isFloat : Bool) : Adds chars (exponent chars isFloat start) c := by
  refine adds_peek_bind ?_
  split
  · next h =>
    obtain ⟨x, hx, hstop⟩ : ∃ x, c.rest.head? = some x ∧ isStop x = false := by
      rcases h with h | h <;> exact ⟨_, h, by decide⟩
    refine adds_skip_bind hx hstop fun d => ?_
    rw [hx, Option.toList_some]
    refine adds_upTo_bind (by decide) fun sign d => adds_run_bind (by decide) fun digits d => ?_
    split
    · next hempty =>
      rw [List.isEmpty_iff.1 hempty, List.append_nil]
      exact adds_malformedNumber
    · exact adds_completeNumber _
  · split
    · exact adds_completeNumber _
    · split
      · exact adds_malformedNumber
      · exact adds_completeNumber _

theorem adds_fraction : Adds chars (fraction chars start) c :=
  adds_run_bind (by decide) fun _ _ => adds_exponent true

theorem adds_decimal : Adds chars (decimal chars start) c := by
  refine adds_run_bind (by decide) fun digits d => adds_peek_bind ?_
  split
  · next h => exact adds_skip_bind h (by decide) fun _ => adds_fraction
  · exact adds_exponent false

theorem adds_hexadecimal : Adds chars (hexadecimal chars start) c := by
  refine adds_run_bind (by decide) fun digits d => ?_
  split
  · next hempty =>
    rw [List.isEmpty_iff.1 hempty, List.append_nil]
    exact adds_malformedNumber
  · exact adds_completeNumber _

theorem adds_number : Adds chars (number chars start) c := by
  refine adds_peek_bind ?_
  split
  · next h =>
    refine adds_skip_bind h (by decide) fun d => adds_peek_bind ?_
    split
    · next h =>
      obtain ⟨x, hx, hstop⟩ : ∃ x, d.rest.head? = some x ∧ isStop x = false := by
        rcases h with h | h <;> exact ⟨_, h, by decide⟩
      refine adds_skip_bind hx hstop fun d => ?_
      rw [hx, Option.toList_some, List.append_assoc, List.singleton_append]
      exact adds_hexadecimal
    · exact adds_decimal
  · exact adds_decimal

/-! ## Words and signs -/

theorem adds_word (mode : Mode) : Adds [] (word mode start) c :=
  adds_run_bind (by decide) fun _ _ => adds_pure rfl

theorem text_single (x : Char) : (single x start).text = String.ofList [x] := by
  unfold single
  split <;> rfl

theorem adds_signed (sign : Char) : Adds [sign] (signed sign start) c := by
  have hsingle (d : Cursor) : Adds [sign] (pure (single sign start)) d := adds_pure (text_single sign)
  refine adds_peek_bind ?_
  split
  · exact hsingle c
  · next x hx =>
    split
    · exact adds_number
    · split
      · next hdot =>
        subst hdot
        refine (peekSecond_ends.mono_error fun _ => trivial).bind ?_
        rintro second _ ⟨-, rfl⟩
        split
        · exact adds_skip_bind hx (by decide) fun _ => adds_fraction
        · exact hsingle _
      · split
        · exact adds_run_bind (by decide) fun _ _ => adds_pure rfl
        · exact hsingle c

theorem spells_literals_kind (outer : Char) (rounds : Nat) (latest : List Char) :
    Spells (fun t => t.kind = .stringLit ∨ t.kind = .illegal)
      (literals outer start rounds latest) := by
  induction rounds generalizing latest with
  | zero => exact spells_pure (.inl rfl)
  | succ rounds ih =>
    refine Spells.bind fun opening => Spells.bind fun first => Spells.bind fun _ =>
      Spells.bind fun b => ?_
    cases b with
    | unterminated latest => exact spells_pure (.inr rfl)
    | badEscape latest p => exact spells_pure (.inr rfl)
    | closed latest =>
      refine Spells.bind fun _ => Spells.bind fun next => ?_
      cases next with
      | none => exact spells_pure (.inl rfl)
      | some x =>
        dsimp only
        split
        · exact ih _
        · exact spells_pure (.inl rfl)

/-! ## The token at a cursor -/

variable {x : Char} {more : List Char}

/-- A token is what is written, and no stop is in it unless it is a stop itself; or it starts with a
quote where strings are wanted, and is one or would be one. -/
theorem token_over (mode : Mode) (hc : c.rest = x :: more) : Ends (token mode) c (fun t d =>
    (∃ cs, t.text = String.ofList cs ∧ c.Over cs d) ∨
      isStop x = true ∧ t = single x c.position ∧ d = c.advance 1 ∨
      isQuote x = true ∧ mode.strings = true ∧ (t.kind = .stringLit ∨ t.kind = .illegal))
        fun _ => True := by
  refine here_ends.bind ?_
  rintro start c ⟨rfl, rfl⟩
  refine (peek_ends.mono_error fun _ => trivial).bind ?_
  rintro _ c ⟨rfl, rfl⟩
  have hx : c.rest.head? = some x := by rw [hc, List.head?_cons]
  rw [hx]
  dsimp only
  have hadds {y : Scan Token} (h : Adds [] y c) : Ends y c (fun t d =>
      (∃ cs, t.text = String.ofList cs ∧ c.Over cs d) ∨
        isStop x = true ∧ t = single x c.position ∧ d = c.advance 1 ∨
        isQuote x = true ∧ mode.strings = true ∧ (t.kind = .stringLit ∨ t.kind = .illegal))
          fun _ => True :=
    h.mono fun t d h => .inl h
  split
  · exact hadds (adds_word mode)
  · split
    · exact hadds adds_number
    · split
      · next hq =>
        obtain ⟨hx, hs⟩ := Bool.and_eq_true _ _ ▸ hq
        refine Ends.mono ?_ fun t d h => .inr (.inr ⟨hx, hs, h⟩)
        exact Spells.bind (fun _ => spells_literals_kind _ _ _) c
      · split
        · next hs =>
          refine hadds (adds_skip_bind hx ?_ fun d => adds_signed x)
          simp only [Bool.and_eq_true, Bool.or_eq_true, beq_iff_eq] at hs
          rcases hs.2 with rfl | rfl <;> decide
        · split
          · next hdot =>
            simp only [Bool.and_eq_true, beq_iff_eq] at hdot
            obtain rfl := hdot.2
            refine hadds (adds_skip_bind hx (by decide) fun d => adds_peek_bind ?_)
            split
            · exact adds_fraction
            · exact adds_pure (text_single '.')
          · by_cases hstop : isStop x = true
            · refine (skip_ends 1).bind ?_
              rintro _ _ rfl
              exact ends_pure (.inr (.inl ⟨hstop, rfl, rfl⟩))
            · exact hadds (adds_skip_bind (f := fun _ => pure (single x c.position)) hx
                (Bool.not_eq_true _ ▸ hstop) fun _ => adds_pure (text_single x))

/-- A stop is a token by itself under every mode. -/
theorem token_stop (mode : Mode) (hc : c.rest = x :: more) (hx : isStop x = true) :
    token mode c = .ok (single x c.position, c.advance 1) := by
  simp only [isStop, Bool.or_eq_true, beq_iff_eq] at hx
  rcases hx with rfl | rfl <;>
    exact token_of_single mode hc (by decide) (by decide) (by simp [isQuote]) (by simp)

/-- A quote is a token by itself where no strings are wanted. -/
theorem token_quote {mode : Mode} (hm : mode.strings = false) (hc : c.rest = x :: more)
    (hx : isQuote x = true) : token mode c = .ok
      (.make (.delimiter .quote) [x] c.position, c.advance 1) := by
  simp only [isQuote, Bool.or_eq_true, beq_iff_eq] at hx
  rcases hx with rfl | rfl <;>
    exact token_of_single mode hc (by decide) (by decide) (by simp [hm]) (by simp)

theorem word_kind_ne_illegal {mode : Mode} {t : Token} {d : Cursor}
    (h : word mode start c = .ok (t, d)) : t.kind ≠ .illegal :=
  (Spells.bind (P := fun t => t.kind ≠ .illegal)
    (fun chars => spells_pure (wordKind_legible mode (String.ofList chars)).2) c).ok h

/-- What starts with a letter is a word, so it is no illegal token. -/
theorem token_text_ne {mode : Mode} {t : Token} {d : Cursor} (hm : mode.strings = false)
    (h : token mode c = .ok (t, d)) (hk : t.kind = .illegal) {w : List Char}
    (hw : w.head?.any isIdentStart = true) : t.text ≠ String.ofList w := by
  intro ht
  rcases hc : c.rest with _ | ⟨x, more⟩
  · obtain ⟨rfl, -⟩ := (token_ends_of_nil mode hc).ok h
    cases hk
  have hx : isIdentStart x = false := by
    cases hx : isIdentStart x with
    | false => rfl
    | true =>
      rw [token_of_identStart mode hc hx] at h
      exact absurd hk (word_kind_ne_illegal h)
  have hfirst (more : List Char) : w ≠ x :: more := by
    rintro rfl
    simp only [List.head?_cons, Option.any_some, hx] at hw
    cases hw
  rcases (token_over mode hc).ok h with ⟨cs, hcs, hover⟩ | ⟨-, rfl, -⟩ | ⟨-, hs, -⟩
  · obtain rfl : cs = w := String.ofList_injective (hcs.symm.trans ht)
    obtain ⟨rest, hrest⟩ := hover.1
    rcases cs with _ | ⟨y, ys⟩
    · cases hw
    · rw [hc] at hrest
      obtain ⟨rfl, -⟩ := List.cons.inj hrest
      exact hfirst _ rfl
  · exact hfirst [] (String.ofList_injective (ht.symm.trans (text_single x)))
  · exact absurd hs (by rw [hm]; nofun)

end Scan

end ProtoIdl
