import ProtoIdl.Grammar.Reader
import ProtoIdl.Proofs.Token.Legible
import ProtoIdl.Proofs.Token.Words
/-!
# How the tokens of a text are spelled

A token that is handed out is spelled as its kind has it: identifiers, numbers, strings and truth
values as the grammar writes them, delimiters as one character (`Kind.Spells`). A number has one sign
at most, and a string that was joined from several literals is itself one literal. It holds under
every mode and from every place of every text. Main statement: `TokenStream.spelled_scan`.
-/
namespace ProtoIdl

open Spelling
open Text (isDigit isOctalDigit isHexDigit isIdentStart isIdentChar)

/-- How a token of a kind is spelled. -/
def Kind.Spells : Kind → List Char → Prop
  | .keyword k, w => w = k.word.toList
  | .delimiter d, w => ∃ x, w = [x] ∧ Delimiter.ofChar? x = some d
  | .ident, w => isIdent w = true
  | .intLit, w => isIntLit (dropSign w) = true
  | .floatLit, w =>
    isFloatLit (dropSign w) = true ∨ dropSign w = "inf".toList ∨ dropSign w = "nan".toList
  | .stringLit, w => isStrLit w = true
  | .boolLit, w => w = "true".toList ∨ w = "false".toList
  | .comment, _ | .illegal, _ | .eof, _ => True

/-- A token is spelled as its kind has it. -/
def Token.Spelled (t : Token) : Prop := t.kind.Spells t.text.toList

theorem Token.spelled_make {kind : Kind} {chars : List Char} (p : Position)
    (h : kind.Spells chars) : (make kind chars p).Spelled := by
  rw [Spelled, make, String.toList_ofList]
  exact h

theorem Token.spelled_malformed (chars : List Char) (fault : LexicalFault) (p : Position) :
    (malformed chars fault p).Spelled := trivial

theorem Token.spelled_ofError (e : LexicalError) : (ofError e).Spelled := trivial

namespace Scan

variable {α β : Type}

/-- Wherever the step is begun, its answer satisfies the property. -/
def Gives (x : Scan α) (P : α → Prop) : Prop :=
  ∀ c, Ends x c (fun a _ => P a) fun _ => True

section
variable {x : Scan α} {P : α → Prop} {Q : β → Prop}

theorem gives_trivial (x : Scan α) : Gives x fun _ => True := ends_trivial x

theorem gives_pure {a : α} (h : P a) : Gives (pure a) P := fun _ => ends_pure h

theorem Gives.bind {f : α → Scan β} (hx : Gives x P) (hf : ∀ a, P a → Gives (f a) Q) :
    Gives (x >>= f) Q :=
  fun c => (hx c).bind fun a d ha => hf a ha d

/-- What the first step gives does not matter. -/
theorem Gives.after {f : α → Scan β} (hf : ∀ a, Gives (f a) Q) : Gives (x >>= f) Q :=
  (gives_trivial x).bind fun a _ => hf a

theorem gives_run (p : Char → Bool) : Gives (run p) fun w => w.all p = true :=
  fun _ => ((run_ends p).mono fun _ _ ⟨h, _⟩ => h ▸ List.all_takeWhile).mono_error fun _ => trivial

theorem gives_upTo (n : Nat) (p : Char → Bool) :
    Gives (upTo n p) fun w => w.length ≤ n ∧ w.all p = true :=
  fun _ => ((upTo_ends p n).mono fun _ _ ⟨_, _, hlen, hall⟩ =>
    ⟨hlen, List.all_eq_true.2 hall⟩).mono_error fun _ => trivial

end

/-! ## Numbers -/

/-- A number behind a sign, or without one: an integer, a float, or what is malformed. -/
inductive Counts (sign : List Char) : Token → Prop
  | intLit {w : List Char} (p : Position) (h : isIntLit w = true) :
    Counts sign (.make .intLit (sign ++ w) p)
  | floatLit {w : List Char} (p : Position) (h : isFloatLit w = true) :
    Counts sign (.make .floatLit (sign ++ w) p)
  | malformed (chars : List Char) (fault : LexicalFault) (p : Position) :
    Counts sign (.malformed chars fault p)

section
variable {sign chars w ds fr ex : List Char} {start : Position}

theorem counts_malformedNumber : Gives (malformedNumber chars start) (Counts sign) :=
  Gives.after fun _ => gives_pure (.malformed _ _ _)

theorem counts_completeNumber {kind : Kind} (h : Counts sign (.make kind chars start)) :
    Gives (completeNumber kind chars start) (Counts sign) := by
  refine Gives.after fun next => ?_
  cases next with
  | none => exact gives_pure h
  | some x =>
    dsimp only
    split
    · exact counts_malformedNumber
    · exact gives_pure h

/-- No digit stands in front of an exponent. -/
theorem exponent_head (hex : ex = [] ∨ isExponent ex = true) :
    ∀ x ∈ ex.head?, isDigit x = false := by
  have hstop : StopsNumber [] := nofun
  have h := not_digit_of_exponent hex hstop
  rwa [List.append_nil] at h

/-- Digits with a point in or around them make a float, an exponent behind them or not. -/
theorem isFloatLit_point {fs : List Char} (hds : ds.all isDigit = true)
    (hfs : fs.all isDigit = true) (hne : ds ≠ [] ∨ fs ≠ [])
    (hex : ex = [] ∨ isExponent ex = true) : isFloatLit (ds ++ '.' :: fs ++ ex) = true := by
  have hpoint : ∀ x ∈ ('.' :: fs ++ ex).head?, isDigit x = false := by
    rintro x ⟨⟩
    decide
  obtain ⟨htake, hdrop⟩ := span_append hds hpoint
  obtain ⟨htake', hdrop'⟩ := span_append hfs (exponent_head hex)
  rw [List.append_assoc, isFloatLit, htake, hdrop]
  simp only [List.cons_append, htake', hdrop']
  simp only [Bool.and_eq_true, Bool.or_eq_true, Bool.not_eq_true', Bool.and_eq_false_iff,
    List.isEmpty_eq_false_iff, List.isEmpty_iff]
  exact ⟨hne, hex⟩

/-- So do digits with an exponent behind them. -/
theorem isFloatLit_exponent (hds : ds.all isDigit = true) (hne : ds ≠ [])
    (hex : isExponent ex = true) : isFloatLit (ds ++ ex) = true := by
  obtain ⟨htake, hdrop⟩ := span_append hds (exponent_head (.inr hex))
  cases ex with
  | nil => cases hex
  | cons x rest =>
    have hx : x ≠ '.' := by
      rintro rfl
      exact absurd hex (by simp [isExponent])
    rw [isFloatLit, htake, hdrop]
    split
    · next heq => exact absurd (List.cons.inj heq).1 hx
    · simp [hne, hex]

/-- Digits make an integer, unless a zero in front of an 8 or a 9 makes them octal. -/
theorem isIntLit_of_digits (hds : ds.all isDigit = true) (hne : ds ≠ [])
    (hoct : isBadOctal ds = false) : isIntLit ds = true := by
  unfold isIntLit
  split
  · next x rest =>
    have hx : ¬ (x = 'x' ∨ x = 'X') := by
      rintro (rfl | rfl) <;> exact absurd hds (by simp [isDigit])
    rw [if_neg hx]
    refine List.all_eq_true.2 fun y hy => ?_
    have hdigit := Text.isDigit_iff.1 (List.all_eq_true.1 hds y (List.mem_cons_of_mem _ hy))
    have hy89 := List.any_eq_false.1 hoct y hy
    rw [Bool.or_eq_true, beq_iff_eq, beq_iff_eq, not_or] at hy89
    rw [Text.isOctalDigit_iff]
    have h8 : y.toNat ≠ '8'.toNat := fun h => hy89.1 (Char.toNat_inj.1 h)
    have h9 : y.toNat ≠ '9'.toNat := fun h => hy89.2 (Char.toNat_inj.1 h)
    change y.toNat ≠ 56 at h8
    change y.toNat ≠ 57 at h9
    omega
  · simp [isDigits, hne, hds]

/-- A sign in front of what does not start with one is taken off. -/
theorem dropSign_append (hlen : sign.length ≤ 1) (hsign : sign.all isSign = true)
    (hw : ∀ x ∈ w.head?, isSign x = false) : dropSign (sign ++ w) = w := by
  rcases sign with _ | ⟨x, _ | ⟨y, rest⟩⟩
  · cases w with
    | nil => rfl
    | cons x rest => simp [dropSign, hw x rfl]
  · simp_all [dropSign]
  · simp at hlen

theorem isSign_of_isDigit {x : Char} (hx : isDigit x = true) : isSign x = false := by
  rw [isSign, Bool.or_eq_false_iff, beq_eq_false_iff_ne, beq_eq_false_iff_ne]
  constructor <;> rintro rfl <;> exact absurd hx (by decide)

theorem head_digits (hds : ds.all isDigit = true) : ∀ x ∈ ds.head?, isSign x = false :=
  fun x hx => isSign_of_isDigit (List.all_eq_true.1 hds x (List.mem_of_mem_head? hx))

/-- Behind the characters of a number an exponent may follow; what the number is with and without it
is known. -/
theorem counts_exponent {isFloat : Bool}
    (hex : ∀ ex, isExponent ex = true → Counts sign (.make .floatLit (chars ++ ex) start))
    (hfloat : isFloat = true → Counts sign (.make .floatLit chars start))
    (hint : isFloat = false → isBadOctal (unsigned chars) = false →
      Counts sign (.make .intLit chars start)) :
    Gives (exponent chars isFloat start) (Counts sign) := by
  refine Gives.after fun next => ?_
  split
  · next hnext =>
    refine Gives.after fun _ => (gives_upTo 1 _).bind fun s ⟨hlen, hs⟩ =>
      (gives_run isDigit).bind fun digits hdigits => ?_
    split
    · exact counts_malformedNumber
    · next hne =>
      have hdrop : dropSign (s ++ digits) = digits := dropSign_append hlen hs (head_digits hdigits)
      have hdigits' : isDigits (dropSign (s ++ digits)) = true := by
        rw [hdrop, isDigits, hdigits, Bool.and_true, Bool.not_eq_true', ← Bool.not_eq_true]
        exact hne
      refine counts_completeNumber ?_
      rcases hnext with rfl | rfl
      · simpa using hex ('e' :: (s ++ digits)) (by simp [isExponent, hdigits'])
      · simpa using hex ('E' :: (s ++ digits)) (by simp [isExponent, hdigits'])
  · split
    · next h => exact counts_completeNumber (hfloat h)
    · next h =>
      split
      · exact counts_malformedNumber
      · next hoct =>
        rw [Bool.not_eq_true] at h hoct
        exact counts_completeNumber (hint h hoct)

/-- Behind a point that follows a digit, or that a digit follows, a number is a float. -/
theorem counts_fraction_tail {fs : List Char} (hds : ds.all isDigit = true)
    (hfs : fs.all isDigit = true) (hne : ds ≠ [] ∨ fs ≠ []) :
    Gives (exponent (sign ++ (ds ++ '.' :: fs)) true start) (Counts sign) := by
  refine counts_exponent (fun ex hex => ?_) (fun _ => ?_) nofun
  · have h : Counts sign (.make .floatLit (sign ++ (ds ++ '.' :: fs ++ ex)) start) :=
      .floatLit start (isFloatLit_point hds hfs hne (.inr hex))
    simpa using h
  · have h : Counts sign (.make .floatLit (sign ++ (ds ++ '.' :: fs ++ [])) start) :=
      .floatLit start (isFloatLit_point hds hfs hne (.inl rfl))
    simpa using h

theorem counts_fraction (hds : ds.all isDigit = true) (hne : ds ≠ []) :
    Gives (fraction (sign ++ ds ++ ['.']) start) (Counts sign) := by
  refine (gives_run isDigit).bind fun fs hfs => ?_
  have h : Gives (exponent (sign ++ (ds ++ '.' :: fs)) true start) (Counts sign) :=
    counts_fraction_tail hds hfs (.inl hne)
  simpa using h

/-- A number that starts with its point, if a digit comes next. -/
theorem fraction_counts {c : Cursor} (hc : c.rest.head?.any isDigit = true) :
    Ends (fraction (sign ++ ['.']) start) c (fun t _ => Counts sign t) fun _ => True := by
  refine ((run_ends isDigit).mono_error fun _ => trivial).bind ?_
  rintro _ d ⟨rfl, -⟩
  obtain ⟨x, hx, hdigit⟩ := (Option.any_eq_true _ _).1 hc
  obtain ⟨rest, hrest⟩ : ∃ rest, c.rest = x :: rest := by
    cases h : c.rest with
    | nil => simp [h] at hx
    | cons y rest => exact ⟨rest, by simp_all⟩
  have hne : c.rest.takeWhile isDigit ≠ [] :=
    List.ne_nil_of_length_pos (length_takeWhile_pos hrest hdigit)
  have h : Gives (exponent (sign ++ ([] ++ '.' :: c.rest.takeWhile isDigit)) true start)
      (Counts sign) := counts_fraction_tail rfl List.all_takeWhile (.inr hne)
  simpa using h d

/-- Behind the digits in front of a point, or of all of an integer. -/
theorem counts_decimal_tail (hsign : sign.all isSign = true)
    (hds : ds.all isDigit = true) (hne : ds ≠ []) :
    Gives (do
      if (← peek) = some '.' then
        skip 1
        fraction (sign ++ ds ++ ['.']) start
      else exponent (sign ++ ds) false start) (Counts sign) := by
  refine Gives.after fun next => ?_
  split
  · exact Gives.after fun _ => counts_fraction hds hne
  · refine counts_exponent (fun ex hex => ?_) nofun fun _ hoct => ?_
    · have h : Counts sign (.make .floatLit (sign ++ (ds ++ ex)) start) :=
        .floatLit start (isFloatLit_exponent hds hne hex)
      simpa using h
    · have hunsigned : unsigned (sign ++ ds) = ds := by
        refine unsigned_append hsign fun x hx => ?_
        exact List.all_eq_true.1 hds x (List.mem_of_mem_head? hx)
      rw [hunsigned] at hoct
      exact .intLit start (isIntLit_of_digits hds hne hoct)

/-- A number whose first digit comes next. -/
theorem number_counts {c : Cursor} {x : Char} {rest : List Char} (hc : c.rest = x :: rest)
    (hx : isDigit x = true) (hsign : sign.all isSign = true) :
    Ends (number sign start) c (fun t _ => Counts sign t) fun _ => True := by
  refine (peek_ends.mono_error fun _ => trivial).bind ?_
  rintro _ c ⟨rfl, rfl⟩
  split
  · refine Gives.after (fun _ => Gives.after fun next => ?_) c
    split
    · next hnext =>
      refine Gives.after fun _ => (gives_run isHexDigit).bind fun digits hdigits => ?_
      split
      · exact counts_malformedNumber
      · next hne =>
        refine counts_completeNumber ?_
        rw [List.append_assoc]
        rcases hnext with rfl | rfl
        all_goals exact .intLit start (by simp_all [isIntLit])
    · refine (gives_run isDigit).bind fun digits hdigits => ?_
      have hds : ('0' :: digits).all isDigit = true := by simpa [isDigit] using hdigits
      rw [List.append_assoc]
      exact counts_decimal_tail hsign hds (List.cons_ne_nil _ _)
  · refine ((run_ends isDigit).mono_error fun _ => trivial).bind ?_
    rintro _ d ⟨rfl, -⟩
    have hne : c.rest.takeWhile isDigit ≠ [] :=
      List.ne_nil_of_length_pos (length_takeWhile_pos hc hx)
    exact counts_decimal_tail hsign List.all_takeWhile hne d

theorem isIntLit_unsigned (h : isIntLit w = true) : ∀ x ∈ w.head?, isSign x = false :=
  fun x hx => isSign_of_isDigit ((isIntLit_digit h).2 x hx)

theorem isFloatLit_unsigned (h : isFloatLit w = true) : ∀ x ∈ w.head?, isSign x = false := by
  rcases isFloatLit_head h with ⟨-, hd⟩ | ⟨y, rest, rfl⟩
  · exact fun x hx => isSign_of_isDigit (hd x hx)
  · rintro x ⟨⟩
    decide

/-- So it is spelled, whatever its sign. -/
theorem Counts.spelled {t : Token} (h : Counts sign t) (hlen : sign.length ≤ 1)
    (hsign : sign.all isSign = true) : t.Spelled := by
  cases h with
  | @intLit w p h =>
    refine Token.spelled_make p ?_
    rwa [Kind.Spells, dropSign_append hlen hsign (isIntLit_unsigned h)]
  | @floatLit w p h =>
    refine Token.spelled_make p (.inl ?_)
    rwa [dropSign_append hlen hsign (isFloatLit_unsigned h)]
  | malformed chars fault p => exact Token.spelled_malformed _ _ _

end

/-! ## Other tokens -/

theorem single_spelled (x : Char) (start : Position) : (single x start).Spelled := by
  unfold single
  split
  · next d hd => exact Token.spelled_make start ⟨x, rfl, hd⟩
  · exact Token.spelled_make start trivial

/-- What a word is taken for is spelled as the word. -/
theorem wordKind_spells (mode : Mode) {w : List Char} (hw : isIdent w = true) :
    (wordKind mode (String.ofList w)).Spells w := by
  have hlist {v : String} (h : String.ofList w = v) : w = v.toList := by
    rw [← h, String.toList_ofList]
  unfold wordKind
  split
  · next h =>
    simp only [Bool.and_eq_true, Bool.or_eq_true, beq_iff_eq] at h
    exact h.2.imp hlist hlist
  · split
    · next h =>
      simp only [Bool.and_eq_true, Bool.or_eq_true, beq_iff_eq] at h
      rcases h.2 with h | h <;> rw [hlist h]
      · exact .inr (.inl rfl)
      · exact .inr (.inr rfl)
    · split
      · split
        · next k hk => exact hlist (Keyword.word_of_ofWord? hk).symm
        · exact hw
      · exact hw

/-- A token that is no string. -/
inductive Unquoted (mode : Mode) : Token → Prop
  | eof (p : Position) : Unquoted mode (.make .eof [] p)
  | single (x : Char) (p : Position) : Unquoted mode (single x p)
  | word {w : List Char} (p : Position) (h : isIdent w = true) :
    Unquoted mode (.make (wordKind mode (String.ofList w)) w p)
  | number {sign : List Char} {t : Token} (h : Counts sign t) (hlen : sign.length ≤ 1)
    (hsign : sign.all isSign = true) : Unquoted mode t
  | special {sign : Char} (hsign : isSign sign = true) (w : List Char) (p : Position) :
    Unquoted mode (.make (if String.ofList w == "inf" || String.ofList w == "nan" then .floatLit
      else .illegal) (sign :: w) p)

theorem Unquoted.spelled {mode : Mode} {t : Token} (h : Unquoted mode t) : t.Spelled := by
  cases h with
  | eof p => exact Token.spelled_make p trivial
  | single x p => exact single_spelled x p
  | word p h => exact Token.spelled_make p (wordKind_spells mode h)
  | number h hlen hsign => exact h.spelled hlen hsign
  | @special sign hsign w p =>
    refine Token.spelled_make p ?_
    have hdrop : dropSign (sign :: w) = w := by rw [dropSign, if_pos hsign]
    split
    · next h =>
      simp only [Bool.or_eq_true, beq_iff_eq, ← String.toList_inj, String.toList_ofList] at h
      refine .inr ?_
      rwa [hdrop]
    · trivial

theorem Unquoted.ne_stringLit {mode : Mode} {t : Token} (h : Unquoted mode t) :
    t.kind ≠ .stringLit := by
  cases h with
  | eof p => nofun
  | single x p =>
    unfold Scan.single
    split <;> nofun
  | word p h =>
    unfold Token.make wordKind
    repeat' split
    all_goals nofun
  | number h hlen hsign => cases h <;> nofun
  | special hsign w p =>
    unfold Token.make
    dsimp only
    split <;> nofun

/-- Behind a sign stands a number, or a word that makes one with it; else the sign is a token. -/
theorem signed_unquoted (mode : Mode) (sign : Char) (hs : isSign sign = true) (start : Position) :
    Gives (signed sign start) (Unquoted mode) := by
  have hsign : [sign].all isSign = true := by simp [hs]
  intro c
  refine (peek_ends.mono_error fun _ => trivial).bind ?_
  rintro _ c ⟨rfl, rfl⟩
  rcases hc : c.rest with _ | ⟨x, rest⟩
  · exact ends_pure (.single sign start)
  simp only [List.head?_cons]
  split
  · next hx => exact (number_counts hc hx hsign).mono fun _ _ h => .number h (Nat.le_refl 1) hsign
  · split
    · refine (peekSecond_ends.mono_error fun _ => trivial).bind ?_
      rintro _ c ⟨rfl, rfl⟩
      split
      · next hdigit =>
        refine (skip_ends 1).bind ?_
        rintro _ _ rfl
        rw [← Cursor.rest_advance] at hdigit
        have h : Ends (fraction ([sign] ++ ['.']) start) (c.advance 1)
            (fun t _ => Counts [sign] t) fun _ => True := fraction_counts hdigit
        exact h.mono fun _ _ h => .number h (Nat.le_refl 1) hsign
      · exact ends_pure (.single sign start)
    · split
      · exact Gives.after (fun w => gives_pure (.special hs w start)) c
      · exact ends_pure (.single sign start)

/-- A token is a string, from its quote on, or it is none. -/
theorem token_unquoted (mode : Mode) (c : Cursor) : Ends (token mode) c
    (fun t d => Unquoted mode t ∨ ∃ q, c.rest.head? = some q ∧ isQuote q = true ∧
      string q c.position c = .ok (t, d)) fun _ => True := by
  refine here_ends.bind ?_
  rintro _ c ⟨rfl, rfl⟩
  refine (peek_ends.mono_error fun _ => trivial).bind ?_
  rintro _ c ⟨rfl, rfl⟩
  rcases hc : c.rest with _ | ⟨x, rest⟩
  · exact ends_pure (.inl (.eof c.position))
  simp only [List.head?_cons]
  split
  · next hx =>
    refine ((run_ends isIdentChar).mono_error fun _ => trivial).bind ?_
    rintro _ d ⟨rfl, -⟩
    refine ends_pure (.inl (.word c.position ?_))
    rw [hc, List.takeWhile_cons_of_pos (Text.isIdentChar_of_isIdentStart hx), isIdent, hx]
    exact List.all_takeWhile
  · split
    · next hx =>
      exact (number_counts hc hx rfl).mono fun _ _ h => .inl (.number h (Nat.zero_le 1) rfl)
    · split
      · next hx =>
        rw [Bool.and_eq_true] at hx
        unfold Ends
        split
        · next heq => exact .inr ⟨x, rfl, hx.1, heq⟩
        · trivial
      · refine (skip_ends 1).bind ?_
        rintro _ _ rfl
        split
        · next hs =>
          rw [Bool.and_eq_true, Bool.or_comm] at hs
          exact (signed_unquoted mode x hs.2 c.position (c.advance 1)).mono fun _ _ => .inl
        · split
          · refine (peek_ends.mono_error fun _ => trivial).bind ?_
            rintro _ d ⟨rfl, rfl⟩
            split
            · next hdigit =>
              have h : Ends (fraction ([] ++ ['.']) c.position) (c.advance 1)
                  (fun t _ => Counts [] t) fun _ => True := fraction_counts hdigit
              exact h.mono fun _ _ h => .inl (.number h (Nat.zero_le 1) rfl)
            · exact ends_pure (.inl (.single x c.position))
          · exact ends_pure (.inl (.single x c.position))

/-! ## Strings -/

/-- Characters inside a string between two quotes of a kind: whole escapes and plain characters. -/
def Inside (quote : Char) (w : List Char) : Prop :=
  ∀ tail, closes quote 0 (w ++ tail) = closes quote 0 tail

section
variable {q x : Char} {w v : List Char}

theorem inside_nil : Inside q [] := fun _ => rfl

theorem Inside.append (hw : Inside q w) (hv : Inside q v) : Inside q (w ++ v) := by
  intro tail
  rw [List.append_assoc, hw, hv]

theorem inside_plain (hq : x ≠ q) (hn : x ≠ '\n') (hb : x ≠ '\\') : Inside q [x] := by
  intro tail
  simp [closes, hq, hn, hb]

/-- Digits of an escape, some of which are needed. -/
theorem closes_digits (hq : isQuote q = true) {n : Nat} {ds : List Char}
    (hds : ds.all isHexDigit = true) (hn : n ≤ ds.length) (tail : List Char) :
    closes q n (ds ++ tail) = closes q 0 tail := by
  induction ds generalizing n with
  | nil =>
    obtain rfl : n = 0 := by simpa using hn
    rfl
  | cons d ds ih =>
    rw [List.all_cons, Bool.and_eq_true] at hds
    cases n with
    | zero =>
      obtain ⟨hdq, hdb, hdn⟩ := isHexDigit_ne hq hds.1
      rw [List.cons_append, ← List.singleton_append, inside_plain hdq hdn hdb]
      exact ih hds.2 (Nat.zero_le _)
    | succ n =>
      rw [List.cons_append, closes, hds.1, Bool.true_and]
      exact ih hds.2 (by simpa using hn)

/-- The characters of an escape behind its backslash, with all the digits that it needs. -/
def IsEscape (w : List Char) : Prop :=
  ∃ x ds n, w = x :: ds ∧ escapeDigits? x = some n ∧ ds.all isHexDigit = true ∧ n ≤ ds.length

theorem isEscape_singleton (hx : escapeDigits? x = some 0) : IsEscape [x] :=
  ⟨x, [], 0, rfl, hx, rfl, Nat.le_refl 0⟩

theorem IsEscape.inside (h : IsEscape w) (hq : isQuote q = true) : Inside q ('\\' :: w) := by
  obtain ⟨x, ds, n, rfl, hx, hds, hn⟩ := h
  intro tail
  simp only [List.cons_append, closes, hx]
  exact closes_digits hq hds hn tail

theorem upTo_covers (n : Nat) (p : Char → Bool) (c : Cursor) :
    Ends (upTo n p) c (fun w d => c.Covers w d ∧ w.all p = true) fun _ => True := by
  refine ((upTo_ends p n).mono ?_).mono_error fun _ => trivial
  rintro _ _ ⟨rfl, hw, -, hall⟩
  exact ⟨Cursor.covers_of_prefix hw, List.all_eq_true.2 hall⟩

/-- A valid escape is what was read. -/
theorem escape_covers (c : Cursor) : Ends escape c
    (fun e d => ∀ w, e = .valid w → IsEscape w ∧ c.Covers w d) fun _ => True := by
  refine (peek_ends.mono_error fun _ => trivial).bind ?_
  rintro _ c ⟨rfl, rfl⟩
  rcases hc : c.rest with _ | ⟨x, more⟩
  · exact ends_pure nofun
  have hx := Cursor.covers_one hc
  refine (skip_ends 1).bind ?_
  rintro _ _ rfl
  split
  · next h =>
    refine ends_pure ?_
    rintro _ ⟨⟩
    exact ⟨isEscape_singleton (by simp [escapeDigits?, h]), hx⟩
  · split
    · next h =>
      refine (upTo_covers 2 isOctalDigit _).bind fun ds d ⟨hds, hall⟩ => ends_pure ?_
      rintro _ ⟨⟩
      refine ⟨⟨x, ds, 0, rfl, by simp [escapeDigits?, h], ?_, Nat.zero_le _⟩, hx.trans hds⟩
      exact List.all_eq_true.2 fun y hy => isHexDigit_of_isOctalDigit (List.all_eq_true.1 hall y hy)
    · next hs ho =>
      rw [Bool.not_eq_true] at hs ho
      split
      · next hhex =>
        refine (upTo_covers 2 isHexDigit _).bind fun ds d ⟨hds, hall⟩ => ends_pure ?_
        intro w hw
        split at hw
        · cases hw
        · next hne =>
          obtain rfl := Escape.valid.inj hw
          have hlen : 1 ≤ ds.length := List.length_pos_iff.2 (by simpa using hne)
          exact ⟨⟨x, ds, 1, rfl, by simp [escapeDigits?, hs, ho, hhex], hall, hlen⟩, hx.trans hds⟩
      · next hhex =>
        split
        · next hu =>
          have hd : escapeDigits? x = some (if x = 'u' then 4 else 8) := by
            rcases hu with rfl | rfl <;> rfl
          dsimp only
          generalize (if x = 'u' then 4 else 8) = width at hd ⊢
          refine (upTo_covers width isHexDigit _).bind fun ds d ⟨hds, hall⟩ => ends_pure ?_
          intro w hw
          split at hw
          · next hlen =>
            obtain rfl := Escape.valid.inj hw
            exact ⟨⟨x, ds, width, rfl, hd, hall, Nat.le_of_eq hlen.symm⟩, hx.trans hds⟩
          · cases hw
        · exact ends_pure nofun

theorem inside_quote (hq : isQuote q = true) {o : Char} (ho : isQuote o = true) :
    Inside o ['\\', q] := by
  have hsimple : isSimpleEscape q = true := by
    rw [isQuote, Bool.or_eq_true, beq_iff_eq, beq_iff_eq] at hq
    rcases hq with rfl | rfl <;> decide
  exact (isEscape_singleton (by simp [escapeDigits?, hsimple])).inside ho

/-! ### The body of a literal -/

section
variable {outer close : Char} {rounds : Nat} {latest latest' : List Char} {c d e : Cursor}

/-- What is done with a character of a literal. -/
theorem body_cons {x : Char} {rest : List Char} (hc : c.rest = x :: rest) :
    body outer close (rounds + 1) latest c =
      (if x = '\n' then return .unterminated latest
      else if x = close then return .closed latest
      else if x = '\\' then do
        match ← escape with
        | .valid escaped => body outer close rounds (escaped.reverse ++ '\\' :: latest)
        | .invalid read => return .badEscape latest (c.advance read).position
      else if x = outer then body outer close rounds (x :: '\\' :: latest)
      else body outer close rounds (x :: latest) : Scan Body) (c.advance 1) := by
  rw [body, run_bind (run_peek (Cursor.peek_of_rest hc))]
  rfl

/-- How a literal that is closed in front of `e` goes on with the character `x` at `c`. -/
inductive GoesOn (outer close : Char) (rounds : Nat) (latest : List Char) (x : Char) (c : Cursor)
    (latest' : List Char) (e : Cursor) : Prop
  | closes (hx : x = close) (hlatest : latest' = latest) (he : e = c.advance 1)
  | escapes {cs : List Char} {d : Cursor} (hx : x ≠ close) (hslash : x = '\\')
      (hescape : escape (c.advance 1) = .ok (.valid cs, d))
      (hb : body outer close rounds (cs.reverse ++ '\\' :: latest) d = .ok (.closed latest', e))
  | plain (hx : x ≠ close) (hslash : x ≠ '\\')
      (hb : body outer close rounds (if x = outer then x :: '\\' :: latest else x :: latest)
        (c.advance 1) = .ok (.closed latest', e))

theorem body_eq_closed {x : Char} {rest : List Char} (hc : c.rest = x :: rest) :
    body outer close (rounds + 1) latest c = .ok (.closed latest', e) ↔
      x ≠ '\n' ∧ GoesOn outer close rounds latest x c latest' e := by
  rw [body_cons hc]
  by_cases hnewline : x = '\n'
  · rw [if_pos hnewline]
    refine ⟨fun h => ?_, fun h => absurd hnewline h.1⟩
    cases h
  rw [if_neg hnewline, and_iff_right hnewline]
  by_cases hx : x = close
  · rw [if_pos hx]
    refine ⟨fun h => ?_, fun h => ?_⟩
    · cases h
      exact .closes hx rfl rfl
    · cases h with
      | closes _ hlatest he => rw [hlatest, he]; rfl
      | escapes hne | plain hne => exact absurd hx hne
  rw [if_neg hx]
  by_cases hslash : x = '\\'
  · rw [if_pos hslash]
    refine ⟨fun h => ?_, fun h => ?_⟩
    · cases hescape : escape (c.advance 1) with
      | error err =>
        rw [run_bind_error hescape] at h
        cases h
      | ok a =>
        obtain ⟨r, d⟩ := a
        rw [run_bind hescape] at h
        cases r with
        | invalid read => cases h
        | valid cs => exact .escapes hx hslash hescape h
    · cases h with
      | closes h => exact absurd h hx
      | escapes _ _ hescape hb => rwa [run_bind hescape]
      | plain _ hne => exact absurd hslash hne
  · rw [if_neg hslash]
    have hif : (if x = outer then body outer close rounds (x :: '\\' :: latest)
          else body outer close rounds (x :: latest) : Scan Body) (c.advance 1) =
        body outer close rounds (if x = outer then x :: '\\' :: latest else x :: latest)
          (c.advance 1) := by
      split <;> rfl
    rw [hif]
    refine ⟨.plain hx hslash, fun h => ?_⟩
    cases h with
    | closes h => exact absurd h hx
    | escapes _ h => exact absurd h hslash
    | plain _ _ hb => exact hb

/-- A literal that is closed has a character there. -/
theorem exists_cons_of_closed
    (hb : body outer close (rounds + 1) latest c = .ok (.closed latest', e)) : ∃ x rest,
      c.rest = x :: rest ∧ x ≠ '\n' ∧ GoesOn outer close rounds latest x c latest' e := by
  cases hc : c.rest with
  | nil =>
    rcases c.peek_cases with hpeek | ⟨err, hpeek, -⟩
    · rw [body, run_bind (run_peek hpeek), hc] at hb
      cases hb
    · have herror : peek c = .error err := by
        rw [peek, hpeek]
        rfl
      rw [body, run_bind_error herror] at hb
      cases hb
  | cons x rest => exact ⟨x, rest, rfl, (body_eq_closed hc).1 hb⟩

/-- The body of a literal stands inside the string that it is joined to. -/
theorem inside_of_closed (ho : isQuote outer = true) (h : Inside outer latest.reverse)
    (hb : body outer close rounds latest c = .ok (.closed latest', e)) :
    Inside outer latest'.reverse := by
  induction rounds generalizing latest c with
  | zero => cases hb
  | succ rounds ih =>
    obtain ⟨x, rest, -, hn, hgoes⟩ := exists_cons_of_closed hb
    cases hgoes with
    | closes _ hlatest => exact hlatest ▸ h
    | @escapes cs d _ _ hescape hb =>
      refine ih ?_ hb
      rw [List.reverse_append, List.reverse_reverse, List.reverse_cons, List.append_assoc]
      exact h.append (((escape_covers _).ok hescape cs rfl).1.inside ho)
    | plain _ hslash hb =>
      refine ih ?_ hb
      split
      · next hx =>
        subst hx
        rw [List.reverse_cons, List.reverse_cons, List.append_assoc]
        exact h.append (inside_quote ho ho)
      · next hx =>
        rw [List.reverse_cons]
        exact h.append (inside_plain hx hn hslash)

end

theorem spelled_quotedToken {outer : Char} (ho : isQuote outer = true) {latest : List Char}
    (h : Inside outer latest.reverse) (start : Position) :
    (quotedToken outer latest start).Spelled := by
  refine Token.spelled_make start ?_
  have hclose : closes outer 0 [outer] = true := by
    simp [closes]
  rw [Kind.Spells, List.cons_append, isStrLit, ho, h, hclose]
  rfl

/-- Literals that are joined are one literal. -/
theorem gives_literals {outer : Char} (ho : isQuote outer = true) (start : Position) (rounds : Nat)
    (latest : List Char) (h : Inside outer latest.reverse) :
    Gives (literals outer start rounds latest) Token.Spelled := by
  induction rounds generalizing latest with
  | zero => exact gives_pure (spelled_quotedToken ho h start)
  | succ rounds ih =>
    refine Gives.after fun opening => Gives.after fun first => Gives.after fun _ =>
      Gives.bind (P := fun b => ∀ w, b = .closed w → Inside outer w.reverse)
        (fun c => (ends_self _ c).mono fun b d hb w hw => inside_of_closed ho h (hw ▸ hb)) fun b hb => ?_
    cases b with
    | unterminated latest => exact gives_pure (Token.spelled_malformed _ _ _)
    | badEscape latest p => exact gives_pure (Token.spelled_malformed _ _ _)
    | closed latest =>
      have hlatest := hb latest rfl
      refine Gives.after fun _ => Gives.after fun next => ?_
      rcases next with _ | c
      · exact gives_pure (spelled_quotedToken ho hlatest start)
      · dsimp only
        split
        · exact ih _ hlatest
        · exact gives_pure (spelled_quotedToken ho hlatest start)

end

/-! ## The tokens of a text -/

theorem token_spelled (mode : Mode) : Gives (token mode) Token.Spelled := by
  refine fun c => (token_unquoted mode c).mono ?_
  rintro t d (h | ⟨q, -, hq, hstring⟩)
  · exact h.spelled
  · have hliterals : Gives (string q c.position) Token.Spelled :=
      Gives.after fun _ => gives_literals hq c.position _ _ inside_nil
    exact (hliterals c).ok hstring

theorem comment_kind : Gives comment fun t => t.kind = .comment ∨ t.kind = .illegal := by
  have hof n trim : Gives (commentOf n trim) fun t => t.kind = .comment ∨ t.kind = .illegal :=
    Gives.after fun _ => Gives.after fun _ => gives_pure (.inl rfl)
  refine Gives.after fun second => ?_
  split
  · exact Gives.after fun _ => Gives.after fun _ => Gives.after fun _ => hof _ _
  · refine Gives.after fun c => ?_
    split
    · exact hof _ _
    · exact Gives.after fun _ => Gives.after fun _ => gives_pure (.inr rfl)

/-- Of comments and of malformed ones no spelling is asked. -/
theorem comment_spelled : Gives comment Token.Spelled := by
  refine fun c => (comment_kind c).mono fun t _ h => ?_
  unfold Token.Spelled
  rcases h with h | h <;> rw [h] <;> trivial

end Scan

/-- Every token that is handed out is spelled as its kind has it. -/
theorem TokenStream.spelled_scan (mode : Mode) (s : TokenStream) : (s.scan mode).1.Spelled :=
  scan_spells Scan.comment_spelled (Scan.token_spelled mode) Token.spelled_ofError s

/-- So is the token that a reader reads next. -/
theorem Reader.spelled_next (mode : Mode) (r : Reader) : (r.next mode).token.Spelled :=
  r.stream.spelled_scan mode

end ProtoIdl
