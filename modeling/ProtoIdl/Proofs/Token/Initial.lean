import ProtoIdl.Proofs.Token.Spelled
/-!
# What a token starts with

Where neither numbers with signs nor strings are wanted, a token starts with the character that stands
at its place. A number that is malformed does so too, so what starts like a word is one. Main statement:
`Scan.plain_begins`.
-/
namespace ProtoIdl

namespace Scan

open Text (isDigit isIdentStart)

/-- The text of the token begins with `w`. -/
def Begins (w : List Char) (t : Token) : Prop := w <+: t.text.toList

section
variable {w chars : List Char} {start : Position}

theorem begins_malformedNumber (h : w <+: chars) : Gives (malformedNumber chars start) (Begins w) := by
  refine Gives.after fun more => gives_pure ?_
  rw [Begins, Token.malformed, String.toList_ofList]
  exact h.trans (List.prefix_append _ _)

theorem begins_completeNumber (kind : Kind) (h : w <+: chars) :
    Gives (completeNumber kind chars start) (Begins w) := by
  have hmake : Begins w (.make kind chars start) := by
    rwa [Begins, Token.make, String.toList_ofList]
  refine Gives.after fun next => ?_
  cases next with
  | none => exact gives_pure hmake
  | some x =>
    dsimp only
    split
    · exact begins_malformedNumber h
    · exact gives_pure hmake

theorem begins_exponent (isFloat : Bool) (h : w <+: chars) :
    Gives (exponent chars isFloat start) (Begins w) := by
  have hmore (more : List Char) : w <+: chars ++ more := h.trans (List.prefix_append _ _)
  refine Gives.after fun next => ?_
  split
  · refine Gives.after fun _ => Gives.after fun sign => Gives.after fun digits => ?_
    rw [List.append_assoc]
    split
    · exact begins_malformedNumber (hmore _)
    · rw [List.append_assoc]
      exact begins_completeNumber _ (hmore _)
  · split
    · exact begins_completeNumber _ h
    · split
      · exact begins_malformedNumber h
      · exact begins_completeNumber _ h

theorem begins_decimal_tail (h : w <+: chars) : Gives (do
    if (← peek) = some '.' then
      skip 1
      fraction (chars ++ ['.']) start
    else exponent chars false start) (Begins w) := by
  refine Gives.after fun next => ?_
  split
  · refine Gives.after fun _ => Gives.after fun digits => begins_exponent _ ?_
    rw [List.append_assoc]
    exact h.trans (List.prefix_append _ _)
  · exact begins_exponent _ h

/-- A number starts with its first digit, also one that is malformed. -/
theorem number_begins {c : Cursor} {x : Char} {rest : List Char} (hc : c.rest = x :: rest)
    (hx : isDigit x = true) :
    Ends (number [] start) c (fun t _ => Begins [x] t) fun _ => True := by
  refine (peek_ends.mono_error fun _ => trivial).bind ?_
  rintro _ c ⟨rfl, rfl⟩
  rw [hc]
  split
  · next h =>
    obtain rfl : x = '0' := Option.some.inj h
    have hzero (more : List Char) : ['0'] <+: '0' :: more := ⟨more, rfl⟩
    refine Gives.after (fun _ => Gives.after fun next => ?_) c
    split
    · refine Gives.after fun _ => Gives.after fun digits => ?_
      split
      · exact begins_malformedNumber (hzero _)
      · exact begins_completeNumber _ (hzero _)
    · exact Gives.after fun digits => begins_decimal_tail (hzero _)
  · refine ((run_ends isDigit).mono_error fun _ => trivial).bind ?_
    rintro _ d ⟨rfl, -⟩
    refine begins_decimal_tail ?_ d
    rw [hc, List.takeWhile_cons_of_pos hx]
    exact ⟨_, rfl⟩

end

/-- Where no numbers or strings are wanted, a token starts with the character that stands there. -/
theorem plain_begins {c d : Cursor} {t : Token} {x : Char} {rest : List Char}
    (hc : c.rest = x :: rest) (ht : token .plain c = .ok (t, d)) : Begins [x] t := by
  cases hx : isIdentStart x with
  | true =>
    rw [token_of_identStart .plain hc hx] at ht
    have hword : Ends (word .plain c.position) c (fun t _ => Begins [x] t) fun _ => True := by
      refine ((run_ends Text.isIdentChar).mono_error fun _ => trivial).bind ?_
      rintro _ d ⟨rfl, -⟩
      refine ends_pure ?_
      rw [Begins, Token.make, String.toList_ofList, hc,
        List.takeWhile_cons_of_pos (Text.isIdentChar_of_isIdentStart hx)]
      exact ⟨_, rfl⟩
    exact hword.ok ht
  | false =>
    cases hd : isDigit x with
    | true =>
      rw [token_of_digit .plain hc hx hd] at ht
      exact (number_begins hc hd).ok ht
    | false =>
      rw [token_of_single .plain hc hx hd (Bool.and_false _) rfl] at ht
      obtain ⟨rfl, -⟩ := Prod.mk.inj (Except.ok.inj ht)
      unfold single Begins
      split <;> exact ⟨[], String.toList_ofList.symm⟩

end Scan

end ProtoIdl
