import ProtoIdl.Proofs.Token.Step
import ProtoIdl.Token.Stream
/-!
# How words are spelled

The spelling of identifiers, numbers and strings, as a grammar has it and not as they are scanned,
and what is read where one of them stands. `Scan.Reads x text a rest` says that on `text` the step
`x` gives `a` and leaves `rest`; it holds on every text without ill-formed octets. Main statements:
`Scan.reads_int`, `Scan.reads_float` and `Scan.reads_pointed`.
-/
namespace ProtoIdl

/-! ## Characters -/

namespace Text

variable {x : Char}

theorem isDigit_iff : isDigit x = true ↔ 48 ≤ x.toNat ∧ x.toNat ≤ 57 := by
  simp [isDigit, Char.le_def, UInt32.le_iff_toNat_le]

theorem isOctalDigit_iff : isOctalDigit x = true ↔ 48 ≤ x.toNat ∧ x.toNat ≤ 55 := by
  simp [isOctalDigit, Char.le_def, UInt32.le_iff_toNat_le]

theorem isAsciiLetter_iff : isAsciiLetter x = true ↔
    97 ≤ x.toNat ∧ x.toNat ≤ 122 ∨ 65 ≤ x.toNat ∧ x.toNat ≤ 90 := by
  simp [isAsciiLetter, Char.le_def, UInt32.le_iff_toNat_le]

theorem isDigit_of_isOctalDigit (h : isOctalDigit x = true) : isDigit x = true := by
  have := isOctalDigit_iff.1 h
  exact isDigit_iff.2 (by omega)

theorem isHexDigit_of_isDigit (h : isDigit x = true) : isHexDigit x = true := by
  simp [isHexDigit, h]

theorem isIdentChar_of_isDigit (h : isDigit x = true) : isIdentChar x = true := by
  have hx := isDigit_iff.1 h
  have ha : isAscii x = true := decide_eq_true (by omega)
  simp [isIdentChar, isNumeric, ha, h]

theorem isIdentChar_of_isHexDigit (h : isHexDigit x = true) : isIdentChar x = true := by
  by_cases hd : isDigit x = true
  · exact isIdentChar_of_isDigit hd
  · have hl : isAsciiLetter x = true := by
      rw [isAsciiLetter_iff]
      simp [isHexDigit, hd, Char.le_def, UInt32.le_iff_toNat_le] at h
      omega
    have hx := isAsciiLetter_iff.1 hl
    have ha : isAscii x = true := decide_eq_true (by omega)
    simp [isIdentChar, isLetter, ha, hl]

/-- Digits start no word. -/
theorem isIdentStart_of_isDigit (h : isDigit x = true) : isIdentStart x = false := by
  have hx := isDigit_iff.1 h
  have ha : isAscii x = true := decide_eq_true (by omega)
  have hl : isAsciiLetter x = false := by
    rw [← Bool.not_eq_true, isAsciiLetter_iff]
    omega
  have hne : x ≠ '_' := by
    rintro rfl
    exact absurd hx.2 (by decide)
  simp [isIdentStart, isLetter, ha, hl, hne]

end Text

/-! ## Spellings -/

namespace Spelling

open Text (isDigit isOctalDigit isHexDigit isIdentStart isIdentChar)
open Scan (isQuote isSimpleEscape)

/-- An identifier. -/
def isIdent : List Char → Bool
  | x :: rest => isIdentStart x && rest.all isIdentChar
  | [] => false

/-- One digit at least. -/
def isDigits (w : List Char) : Bool := !w.isEmpty && w.all isDigit

/-- An integer: decimal, octal with a zero in front, or hexadecimal behind `0x`. -/
def isIntLit : List Char → Bool
  | '0' :: x :: rest =>
    if x = 'x' ∨ x = 'X' then !rest.isEmpty && rest.all isHexDigit
    else (x :: rest).all isOctalDigit
  | w => isDigits w

/-- A plus or a minus. -/
def isSign (c : Char) : Bool := c == '+' || c == '-'

/-- Removes one sign. -/
def dropSign : List Char → List Char
  | x :: rest => if isSign x then rest else x :: rest
  | [] => []

/-- An exponent, from its `e` on. -/
def isExponent : List Char → Bool
  | x :: rest => (x == 'e' || x == 'E') && isDigits (dropSign rest)
  | [] => false

/-- A float: digits around a point, an exponent, or both. -/
def isFloatLit (w : List Char) : Bool :=
  match w.dropWhile isDigit with
  | '.' :: rest =>
    !((w.takeWhile isDigit).isEmpty && (rest.takeWhile isDigit).isEmpty) &&
      ((rest.dropWhile isDigit).isEmpty || isExponent (rest.dropWhile isDigit))
  | rest => !(w.takeWhile isDigit).isEmpty && isExponent rest

/-- A number with at most one sign; `inf` and `nan` are numbers. -/
def isNumber (w : List Char) : Bool :=
  isIntLit (dropSign w) || isFloatLit (dropSign w) || dropSign w == "inf".toList ||
    dropSign w == "nan".toList

/-- The number of hexadecimal digits that an escape with this character needs. -/
def escapeDigits? (x : Char) : Option Nat :=
  if isSimpleEscape x || isOctalDigit x then some 0
  else if x = 'x' ∨ x = 'X' then some 1
  else if x = 'u' then some 4
  else if x = 'U' then some 8
  else none

/-- The rest of a string up to its quote, which comes last; some hexadecimal digits come first. More
digits of an escape are characters like any other. -/
def closes (quote : Char) : (digits : Nat) → List Char → Bool
  | _, [] => false
  | n + 1, x :: rest => isHexDigit x && closes quote n rest
  | 0, '\\' :: x :: rest =>
    match escapeDigits? x with
    | some n => closes quote n rest
    | none => false
  | 0, x :: rest =>
    if x = quote then rest.isEmpty else x != '\n' && x != '\\' && closes quote 0 rest

/-- A string between two equal quotes. -/
def isStrLit : List Char → Bool
  | x :: rest => isQuote x && closes x 0 rest
  | [] => false

theorem all_of_isIdent {w : List Char} (h : isIdent w = true) : w.all isIdentChar = true := by
  cases w with
  | nil => rfl
  | cons x rest =>
    obtain ⟨hx, hrest⟩ := Bool.and_eq_true_iff.1 h
    rw [List.all_cons, Text.isIdentChar_of_isIdentStart hx, hrest]
    rfl

end Spelling

namespace Scan

open Spelling
open Text (isDigit isOctalDigit isHexDigit isIdentStart isIdentChar)

variable {α β : Type}

/-! ## Steps on a text -/

/-- On a text without ill-formed octets the step gives `a` and leaves `rest`. -/
def Reads (x : Scan α) (text : List Char) (a : α) (rest : List Char) : Prop :=
  ∀ c : Cursor, c.ending = none → c.rest = text → ∃ d, x c = .ok (a, d) ∧ d.ending = none ∧
    d.rest = rest

section
variable {x : Scan α} {f : α → Scan β} {a : α} {b : β} {text rest tail : List Char}

theorem Reads.bind (hx : Reads x text a rest) (hf : Reads (f a) rest b tail) :
    Reads (x >>= f) text b tail := by
  intro c he hc
  obtain ⟨d, hd, hed, hrest⟩ := hx c he hc
  rw [run_bind hd]
  exact hf d hed hrest

theorem reads_pure (a : α) (text : List Char) : Reads (pure a) text a text :=
  fun c he hc => ⟨c, rfl, he, hc⟩

theorem reads_get_bind {f : Cursor → Scan β} (hf : ∀ c, c.rest = text → Reads (f c) text b tail) :
    Reads (get >>= f) text b tail := fun c he hc => hf c hc c he hc

theorem reads_here_bind {f : Position → Scan β} (hf : ∀ p, Reads (f p) text b tail) :
    Reads (here >>= f) text b tail := by
  intro c he hc
  rw [run_bind (run_here c)]
  exact hf _ c he hc

/-- Where no octets are ill-formed the next character can be looked at. -/
theorem peek_of_whole {c : Cursor} (he : c.ending = none) : c.peek = .ok c.rest.head? := by
  rcases c.peek_cases with h | ⟨e, -, hf⟩
  · exact h
  · exact absurd hf (Cursor.not_faulty he)

theorem reads_peek (text : List Char) : Reads peek text text.head? text :=
  fun c he hc => ⟨c, hc ▸ run_peek (peek_of_whole he), he, hc⟩

theorem reads_peekSecond (text : List Char) :
    Reads peekSecond text (text.drop 1).head? text := by
  intro c he hc
  obtain ⟨a, d, h, ha, rfl⟩ := peekSecond_ends.exists_ok fun e => Cursor.not_faulty he
  exact ⟨d, hc ▸ ha ▸ h, he, hc⟩

theorem reads_skip (n : Nat) (text : List Char) : Reads (skip n) text () (text.drop n) :=
  fun c he hc => ⟨c.advance n, rfl, he, by rw [Cursor.rest_advance, hc]⟩

theorem drop_takeWhile (p : Char → Bool) (text : List Char) :
    text.drop (text.takeWhile p).length = text.dropWhile p := by
  conv => lhs; arg 2; rw [← List.takeWhile_append_dropWhile (p := p) (l := text)]
  exact List.drop_left

theorem reads_run (p : Char → Bool) (text : List Char) :
    Reads (run p) text (text.takeWhile p) (text.dropWhile p) := by
  rintro c he rfl
  obtain ⟨a, d, h, rfl, rfl⟩ := (run_ends p).exists_ok fun e => Cursor.not_faulty he
  exact ⟨_, h, he, drop_takeWhile p c.rest⟩

theorem reads_upTo (n : Nat) (p : Char → Bool) (text : List Char) :
    Reads (upTo n p) text ((text.take n).takeWhile p)
      (text.drop ((text.take n).takeWhile p).length) := by
  induction n generalizing text with
  | zero => exact reads_pure [] text
  | succ n ih =>
    refine (reads_peek text).bind ?_
    cases text with
    | nil => exact reads_pure [] []
    | cons x rest =>
      simp only [List.head?_cons, List.take_succ_cons, List.takeWhile_cons]
      split
      · exact (reads_skip 1 _).bind ((ih rest).bind (reads_pure _ _))
      · exact reads_pure [] _

/-- The characters with a property in front of one without it. -/
theorem span_append {p : Char → Bool} {w tail : List Char} (hw : w.all p = true)
    (ht : ∀ x ∈ tail.head?, p x = false) :
    (w ++ tail).takeWhile p = w ∧ (w ++ tail).dropWhile p = tail := by
  have hall := List.all_eq_true.1 hw
  rw [List.takeWhile_append_of_pos hall, List.dropWhile_append_of_pos hall]
  cases tail with
  | nil => simp
  | cons x rest => simp [ht x rfl]

/-- Characters with a property are read up to the first character without it. -/
theorem reads_run_append {p : Char → Bool} {w tail : List Char} (hw : w.all p = true)
    (ht : ∀ x ∈ tail.head?, p x = false) : Reads (run p) (w ++ tail) w tail := by
  have h := reads_run p (w ++ tail)
  obtain ⟨htake, hdrop⟩ := span_append hw ht
  rwa [htake, hdrop] at h

end

/-! ## Numbers -/

/-- Nothing follows that a number could run into. -/
def StopsNumber (tail : List Char) : Prop := ∀ x ∈ tail.head?, isNumberTail x = false

section
variable {w ds fr ex tail : List Char} (chars sign : List Char) (start : Position)

theorem StopsNumber.not_digit (h : StopsNumber tail) : ∀ x ∈ tail.head?, isDigit x = false := by
  intro x hx
  have := h x hx
  rw [← Bool.not_eq_true]
  intro hd
  simp [isNumberTail, Text.isIdentChar_of_isDigit hd] at this

theorem reads_completeNumber (kind : Kind) (h : StopsNumber tail) :
    Reads (completeNumber kind chars start) tail (.make kind chars start) tail := by
  refine (reads_peek tail).bind ?_
  cases tail with
  | nil => exact reads_pure _ _
  | cons x rest =>
    simp only [List.head?_cons, h x rfl, Bool.false_eq_true, if_false]
    exact reads_pure _ _

theorem reads_sign (tail : List Char) (h : isDigits (dropSign w) = true) : ∃ sg, w = sg ++ dropSign w ∧
    Reads (upTo 1 fun c => c == '+' || c == '-') (w ++ tail) sg (dropSign w ++ tail) := by
  cases w with
  | nil => cases h
  | cons x rest =>
    have hread := reads_upTo 1 (fun c => c == '+' || c == '-') (x :: rest ++ tail)
    unfold dropSign at h ⊢
    by_cases hx : isSign x = true
    · refine ⟨[x], by simp [hx], ?_⟩
      simpa [hx, show (x == '+' || x == '-') = true from hx] using hread
    · rw [Bool.not_eq_true] at hx
      refine ⟨[], by simp [hx], ?_⟩
      simpa [hx, show (x == '+' || x == '-') = false from hx] using hread

/-- Behind the digits stands an exponent, or nothing that belongs to the number. -/
theorem reads_exponent (isFloat : Bool) (hex : ex = [] ∨ isExponent ex = true)
    (ht : StopsNumber tail)
    (hoct : isFloat = false → ex = [] → isBadOctal (unsigned chars) = false) :
    Reads (exponent chars isFloat start) (ex ++ tail)
      (.make (if isFloat = true ∨ ex ≠ [] then .floatLit else .intLit) (chars ++ ex) start)
      tail := by
  refine (reads_peek _).bind ?_
  rcases hex with rfl | hex
  · have hne : ¬ (tail.head? = some 'e' ∨ tail.head? = some 'E') := by
      rintro (h | h)
      · exact absurd (ht 'e' h) (by decide)
      · exact absurd (ht 'E' h) (by decide)
    simp only [List.nil_append, hne, if_false, List.append_nil, ne_eq, not_true, or_false]
    cases isFloat with
    | true => exact reads_completeNumber _ _ .floatLit ht
    | false =>
      simp only [Bool.false_eq_true, if_false, hoct rfl rfl]
      exact reads_completeNumber _ _ .intLit ht
  · cases ex with
    | nil => cases hex
    | cons x rest =>
      simp only [isExponent, Bool.and_eq_true, Bool.or_eq_true, beq_iff_eq] at hex
      obtain ⟨hx, hds⟩ := hex
      have hx' : some x = some 'e' ∨ some x = some 'E' := by simpa using hx
      simp only [List.cons_append, List.head?_cons, hx', if_true, Option.toList_some]
      obtain ⟨sg, hsg, hread⟩ := reads_sign tail hds
      obtain ⟨hne, hall⟩ := Bool.and_eq_true_iff.1 hds
      refine (reads_skip 1 _).bind (hread.bind ((reads_run_append hall ht.not_digit).bind ?_))
      rw [Bool.not_eq_true'] at hne
      simp only [hne, Bool.false_eq_true, if_false, ne_eq, reduceCtorEq, not_false_eq_true, or_true,
        if_true]
      have hchars : chars ++ [x] ++ sg ++ dropSign rest = chars ++ x :: rest := by
        simp [← hsg]
      rw [hchars]
      exact reads_completeNumber _ _ .floatLit ht

theorem not_digit_of_exponent (hex : ex = [] ∨ isExponent ex = true) (ht : StopsNumber tail) :
    ∀ x ∈ (ex ++ tail).head?, isDigit x = false := by
  rcases hex with rfl | hex
  · exact ht.not_digit
  · cases ex with
    | nil => cases hex
    | cons x rest =>
      simp only [isExponent, Bool.and_eq_true, Bool.or_eq_true, beq_iff_eq] at hex
      rintro _ ⟨⟩
      rcases hex.1 with rfl | rfl <;> decide

theorem reads_fraction (hds : ds.all isDigit = true) (hex : ex = [] ∨ isExponent ex = true)
    (ht : StopsNumber tail) :
    Reads (fraction chars start) (ds ++ (ex ++ tail)) (.make .floatLit (chars ++ ds ++ ex) start)
      tail := by
  refine (reads_run_append hds (not_digit_of_exponent hex ht)).bind ?_
  have h := reads_exponent (chars ++ ds) start true hex ht nofun
  simpa using h

/-- The digits of a number, perhaps a point with more of them, and perhaps an exponent. -/
theorem reads_decimal (hds : ds.all isDigit = true)
    (hfr : fr = [] ∨ ∃ fs, fr = '.' :: fs ∧ fs.all isDigit = true)
    (hex : ex = [] ∨ isExponent ex = true) (ht : StopsNumber tail)
    (hoct : fr = [] → ex = [] → isBadOctal (unsigned (chars ++ ds)) = false) :
    Reads (decimal chars start) (ds ++ (fr ++ (ex ++ tail)))
      (.make (if fr ≠ [] ∨ ex ≠ [] then .floatLit else .intLit) (chars ++ (ds ++ (fr ++ ex))) start)
      tail := by
  have hstop := not_digit_of_exponent hex ht
  rcases hfr with rfl | ⟨fs, rfl, hfs⟩
  · refine (reads_run_append hds hstop).bind ((reads_peek _).bind ?_)
    have hdot : (ex ++ tail).head? ≠ some '.' := by
      rcases hex with rfl | hex
      · exact fun h => absurd (ht '.' h) (by decide)
      · cases ex with
        | nil => cases hex
        | cons x rest =>
          simp only [isExponent, Bool.and_eq_true, Bool.or_eq_true, beq_iff_eq] at hex
          rintro ⟨⟩
          exact absurd hex.1 (by decide)
    have h := reads_exponent (chars ++ ds) start false hex ht
      fun _ => hoct rfl
    rw [List.nil_append, if_neg hdot]
    simpa using h
  · refine (reads_run_append hds ?_).bind ((reads_peek _).bind ?_)
    · rintro _ ⟨⟩
      decide
    · have h := reads_fraction (chars ++ ds ++ ['.']) start hfs hex ht
      have hdot : ('.' :: fs ++ (ex ++ tail)).head? = some '.' := rfl
      rw [if_pos hdot]
      refine (reads_skip 1 _).bind ?_
      simpa using h

theorem forall_head_append {P : Char → Prop} {a b : List Char} (ha : ∀ x ∈ a.head?, P x)
    (hb : ∀ x ∈ b.head?, P x) : ∀ x ∈ (a ++ b).head?, P x := by
  cases a with
  | nil => exact hb
  | cons y a => exact ha

/-- Behind a first zero no `x` follows. -/
theorem not_hexadecimal (hds : ds.all isDigit = true)
    (hfr : fr = [] ∨ ∃ fs, fr = '.' :: fs ∧ fs.all isDigit = true)
    (hex : ex = [] ∨ isExponent ex = true) (ht : StopsNumber tail) :
    ∀ x ∈ (ds ++ (fr ++ (ex ++ tail))).head?, x ≠ 'x' ∧ x ≠ 'X' := by
  refine forall_head_append ?_ (forall_head_append ?_ (forall_head_append ?_ ?_))
  · intro x hx
    have hx : isDigit x = true := List.all_eq_true.1 hds x (List.mem_of_mem_head? hx)
    constructor <;> rintro rfl <;> exact absurd hx (by decide)
  · rcases hfr with rfl | ⟨fs, rfl, -⟩
    · simp
    · rintro _ ⟨⟩
      decide
  · rcases hex with rfl | hex
    · simp
    · cases ex with
      | nil => cases hex
      | cons x rest =>
        simp only [isExponent, Bool.and_eq_true, Bool.or_eq_true, beq_iff_eq] at hex
        rintro _ ⟨⟩
        rcases hex.1 with rfl | rfl <;> decide
  · intro x hx
    have hx := ht x hx
    constructor <;> rintro rfl <;> exact absurd hx (by decide)

/-- So it is for a whole number, if it is not hexadecimal. -/
theorem reads_number_decimal (hne : ds ≠ []) (hds : ds.all isDigit = true)
    (hfr : fr = [] ∨ ∃ fs, fr = '.' :: fs ∧ fs.all isDigit = true)
    (hex : ex = [] ∨ isExponent ex = true) (ht : StopsNumber tail)
    (hoct : fr = [] → ex = [] → isBadOctal (unsigned (sign ++ ds)) = false) :
    Reads (number sign start) (ds ++ (fr ++ (ex ++ tail)))
      (.make (if fr ≠ [] ∨ ex ≠ [] then .floatLit else .intLit) (sign ++ (ds ++ (fr ++ ex))) start)
      tail := by
  obtain ⟨x, ds, rfl⟩ := List.exists_cons_of_ne_nil hne
  have hds' : ds.all isDigit = true := (Bool.and_eq_true_iff.1 hds).2
  refine (reads_peek _).bind ?_
  by_cases hx : x = '0'
  · subst hx
    have hzero : ('0' :: ds ++ (fr ++ (ex ++ tail))).head? = some '0' := rfl
    have hnext : ¬ ((ds ++ (fr ++ (ex ++ tail))).head? = some 'x' ∨
        (ds ++ (fr ++ (ex ++ tail))).head? = some 'X') := by
      rintro (h | h)
      · exact (not_hexadecimal hds' hfr hex ht _ h).1 rfl
      · exact (not_hexadecimal hds' hfr hex ht _ h).2 rfl
    have h := reads_decimal (sign ++ ['0']) start hds' hfr hex ht
      (by simpa using hoct)
    rw [if_pos hzero]
    refine (reads_skip 1 _).bind ((reads_peek _).bind ?_)
    rw [List.cons_append, List.drop_one, List.tail_cons, if_neg hnext]
    simpa using h
  · have hzero : (x :: ds ++ (fr ++ (ex ++ tail))).head? ≠ some '0' := by simpa using hx
    rw [if_neg hzero]
    exact reads_decimal sign start hds hfr hex ht hoct

theorem unsigned_append {sign : List Char} (hs : sign.all isSign = true)
    (hw : ∀ x ∈ w.head?, isDigit x = true) :
    unsigned (sign ++ w) = w := by
  change (sign ++ w).dropWhile isSign = w
  rw [List.dropWhile_append_of_pos (List.all_eq_true.1 hs)]
  cases w with
  | nil => rfl
  | cons x rest =>
    have hx := Text.isDigit_iff.1 (hw x rfl)
    have hne : isSign x = false := by
      rw [isSign, Bool.or_eq_false_iff, beq_eq_false_iff_ne, beq_eq_false_iff_ne]
      constructor <;> rintro rfl <;> exact absurd hx (by decide)
    rw [List.dropWhile_cons, hne]
    rfl

/-- A decimal or octal integer has digits only, and no 8 or 9 behind a zero. -/
theorem isIntLit_cases (hw : isIntLit w = true) :
    (∃ x rest, w = '0' :: x :: rest ∧ (x = 'x' ∨ x = 'X') ∧ rest ≠ [] ∧
      rest.all isHexDigit = true) ∨
    w ≠ [] ∧ w.all isDigit = true ∧ isBadOctal w = false := by
  unfold isIntLit at hw
  split at hw
  · next x rest =>
    split at hw
    · next hx =>
      rw [Bool.and_eq_true, Bool.not_eq_true', List.isEmpty_eq_false_iff] at hw
      exact .inl ⟨x, rest, rfl, hx, hw⟩
    · have hall := List.all_eq_true.1 hw
      refine .inr ⟨nofun, List.all_eq_true.2 fun y hy => ?_, ?_⟩
      · rcases List.mem_cons.1 hy with rfl | hy
        · decide
        · exact Text.isDigit_of_isOctalDigit (hall y hy)
      · refine List.any_eq_false.2 fun y hy => ?_
        have := Text.isOctalDigit_iff.1 (hall y hy)
        rw [Bool.or_eq_true, beq_iff_eq, beq_iff_eq]
        rintro (rfl | rfl) <;> exact absurd this (by decide)
  · next hne =>
    obtain ⟨hempty, hall⟩ := Bool.and_eq_true_iff.1 hw
    rw [Bool.not_eq_true', List.isEmpty_eq_false_iff] at hempty
    refine .inr ⟨hempty, hall, ?_⟩
    unfold isBadOctal
    split
    · next rest =>
      cases rest with
      | nil => rfl
      | cons y rest => exact absurd rfl (hne y rest)
    · rfl

/-- An integer is read behind a sign or without one. -/
theorem reads_int (hw : isIntLit w = true) (hs : sign.all isSign = true) (ht : StopsNumber tail) :
    Reads (number sign start) (w ++ tail) (.make .intLit (sign ++ w) start) tail := by
  rcases isIntLit_cases hw with ⟨x, rest, rfl, hx, hne, hall⟩ | ⟨hne, hall, hoct⟩
  · have hstop : ∀ y ∈ tail.head?, isHexDigit y = false := by
      intro y hy
      rw [← Bool.not_eq_true]
      intro hhex
      simpa [isNumberTail, Text.isIdentChar_of_isHexDigit hhex] using ht y hy
    have hzero : ('0' :: x :: rest ++ tail).head? = some '0' := rfl
    have hnext : ('0' :: x :: rest ++ tail).drop 1 = x :: (rest ++ tail) := rfl
    have hx' : some x = some 'x' ∨ some x = some 'X' := by simpa using hx
    have hempty : rest.isEmpty = false := List.isEmpty_eq_false_iff.2 hne
    refine (reads_peek _).bind ?_
    rw [if_pos hzero]
    refine (reads_skip 1 _).bind ?_
    rw [hnext]
    refine (reads_peek _).bind ?_
    rw [List.head?_cons, if_pos hx']
    refine (reads_skip 1 _).bind ((reads_run_append hall hstop).bind ?_)
    rw [hempty]
    have h := reads_completeNumber (sign ++ '0' :: x :: rest) start .intLit ht
    simpa using h
  · have hunsigned : unsigned (sign ++ w) = w := by
      refine unsigned_append hs fun x hx => ?_
      exact List.all_eq_true.1 hall x (List.mem_of_mem_head? hx)
    have h := reads_number_decimal sign start hne hall (.inl rfl) (.inl rfl) ht
      fun _ _ => by rw [hunsigned, hoct]
    simpa using h

/-- A float has digits in front of a point or behind it, or an exponent. -/
theorem isFloatLit_cases (hw : isFloatLit w = true) : ∃ ds fr ex, w = ds ++ (fr ++ ex) ∧
    ds.all isDigit = true ∧ (fr = [] ∨ ∃ fs, fr = '.' :: fs ∧ fs.all isDigit = true) ∧
      (ex = [] ∨ isExponent ex = true) ∧ (fr ≠ [] ∨ ex ≠ []) ∧
        (ds = [] → ∃ x fs, fr = '.' :: x :: fs ∧ isDigit x = true) := by
  have happ := List.takeWhile_append_dropWhile (p := isDigit) (l := w)
  have hall : (w.takeWhile isDigit).all isDigit = true := List.all_takeWhile
  unfold isFloatLit at hw
  split at hw
  · next rest hrest =>
    have happ' := List.takeWhile_append_dropWhile (p := isDigit) (l := rest)
    have hall' : (rest.takeWhile isDigit).all isDigit = true := List.all_takeWhile
    simp only [Bool.and_eq_true, Bool.or_eq_true, List.isEmpty_iff, Bool.not_eq_true',
      Bool.and_eq_false_iff, List.isEmpty_eq_false_iff] at hw
    refine ⟨w.takeWhile isDigit, '.' :: rest.takeWhile isDigit, rest.dropWhile isDigit, ?_, hall,
      .inr ⟨_, rfl, hall'⟩, hw.2, .inl nofun, fun hnil => ?_⟩
    · rw [List.cons_append, happ', ← hrest, happ]
    · have hne := hw.1.resolve_left (absurd hnil)
      obtain ⟨x, fs, hx⟩ := List.exists_cons_of_ne_nil hne
      rw [hx] at hall' ⊢
      exact ⟨x, fs, rfl, (Bool.and_eq_true_iff.1 hall').1⟩
  · simp only [Bool.and_eq_true, Bool.not_eq_true', List.isEmpty_eq_false_iff] at hw
    refine ⟨w.takeWhile isDigit, [], w.dropWhile isDigit, happ.symm, hall, .inl rfl, .inr hw.2,
      .inr fun h => ?_, fun h => absurd h hw.1⟩
    rw [h] at hw
    exact absurd hw.2 (by decide)

/-- So is a float that starts with a digit. -/
theorem reads_float (hw : isFloatLit w = true) (hd : ∀ x ∈ w.head?, isDigit x = true)
    (ht : StopsNumber tail) :
    Reads (number sign start) (w ++ tail) (.make .floatLit (sign ++ w) start) tail := by
  obtain ⟨ds, fr, ex, rfl, hds, hfr, hex, hne, hnil⟩ := isFloatLit_cases hw
  have hds' : ds ≠ [] := by
    intro h
    obtain ⟨x, fs, rfl, -⟩ := hnil h
    subst h
    exact absurd (hd '.' rfl) (by decide)
  have h := reads_number_decimal sign start hds' hds hfr hex ht
    fun hfr hex => absurd hex (hne.resolve_left (absurd hfr))
  rw [if_pos hne] at h
  simpa using h

/-- A float that starts with its point is read from behind that on. -/
theorem reads_pointed {x : Char} {rest : List Char} (hw : isFloatLit ('.' :: x :: rest) = true)
    (ht : StopsNumber tail) : isDigit x = true ∧
    Reads (fraction (sign ++ ['.']) start) (x :: rest ++ tail)
      (.make .floatLit (sign ++ '.' :: x :: rest) start) tail := by
  obtain ⟨ds, fr, ex, hw, hds, hfr, hex, -, hnil⟩ := isFloatLit_cases hw
  cases ds with
  | cons y ds =>
    obtain ⟨rfl, -⟩ := List.cons.inj hw
    exact absurd (Bool.and_eq_true_iff.1 hds).1 (by decide)
  | nil =>
    obtain ⟨y, fs, rfl, hy⟩ := hnil rfl
    obtain ⟨-, hw⟩ := List.cons.inj hw
    obtain ⟨rfl, hrest⟩ := List.cons.inj hw
    obtain ⟨fs', hfs', hall⟩ := hfr.resolve_left nofun
    obtain ⟨-, rfl⟩ := List.cons.inj hfs'
    have h := reads_fraction (sign ++ ['.']) start hall hex ht
    have heq : x :: rest = x :: fs ++ ex := by rw [hrest]; rfl
    refine ⟨hy, ?_⟩
    rw [heq]
    simpa using h

end

end Scan

end ProtoIdl
