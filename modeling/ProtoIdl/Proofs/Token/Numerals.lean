import ProtoIdl.Proofs.Token.Bounds
import ProtoIdl.Proofs.Token.Lookahead
import ProtoIdl.Proofs.Token.Spaced
import ProtoIdl.Proofs.Token.Verbatim
import Mathlib.Computability.RegularExpressions
/-!
# Numbers are what their regular expressions match

The grammar has two regular expressions for numbers, `Spelling.intNumeral` and
`Spelling.floatNumeral`. What is handed out as a number matches its expression. Conversely what
matches one of them is handed out whole where numbers are wanted, if neither a point nor a character
of a word follows; and where a digit stands nothing but a number or an error is handed out. Main
statement: `numbers_scanned`.
-/
namespace ProtoIdl

open Spelling
open Text (isDigit isOctalDigit isHexDigit isIdentChar)

/-! ## Regular expressions -/

namespace Spelling

open RegularExpression

/-- One of the characters. -/
def oneOf (cs : List Char) : RegularExpression Char := cs.foldr (fun c P => char c + P) 0

/-- The characters one behind the other. -/
def exactly (cs : List Char) : RegularExpression Char := cs.foldr (fun c P => char c * P) 1

/-- `P?` -/
def maybe (P : RegularExpression Char) : RegularExpression Char := 1 + P

/-- `P+` -/
def several (P : RegularExpression Char) : RegularExpression Char := P * P.star

/-- `[0-9]` -/
def digit : RegularExpression Char := oneOf "0123456789".toList

/-- `[+-]?` -/
def maybeSign : RegularExpression Char := maybe (oneOf ['+', '-'])

/-- `0 | [1-9][0-9]* | 0[0-7]+ | 0[xX][0-9a-fA-F]+` -/
def unsignedInt : RegularExpression Char :=
  char '0' + oneOf "123456789".toList * digit.star +
    char '0' * several (oneOf "01234567".toList) +
    char '0' * (oneOf ['x', 'X'] * several (oneOf "0123456789abcdefABCDEF".toList))

/-- `[+-]? ( 0 | [1-9][0-9]* | 0[0-7]+ | 0[xX][0-9a-fA-F]+ )` -/
def intNumeral : RegularExpression Char := maybeSign * unsignedInt

/-- `[eE][+-]?[0-9]+` -/
def exponent : RegularExpression Char := oneOf ['e', 'E'] * (maybeSign * several digit)

/-- `[0-9]+ "." [0-9]* exponent? | [0-9]+ exponent | "." [0-9]+ exponent? | inf | nan` -/
def unsignedFloat : RegularExpression Char :=
  several digit * (char '.' * (digit.star * maybe exponent)) + several digit * exponent +
    char '.' * (several digit * maybe exponent) + exactly "inf".toList + exactly "nan".toList

/-- `[+-]? ( [0-9]+ "." [0-9]* exponent? | [0-9]+ exponent | "." [0-9]+ exponent? | inf | nan )` -/
def floatNumeral : RegularExpression Char := maybeSign * unsignedFloat

variable {P Q : RegularExpression Char} {cs w : List Char} {x : Char}

/-! ### What they match -/

theorem mem_add : w ∈ (P + Q).matches' ↔ w ∈ P.matches' ∨ w ∈ Q.matches' := Iff.rfl

theorem mem_mul : w ∈ (P * Q).matches' ↔ ∃ u ∈ P.matches', ∃ v ∈ Q.matches', u ++ v = w :=
  Language.mem_mul

theorem mem_char : w ∈ (char x).matches' ↔ w = [x] := Iff.rfl

theorem mem_maybe : w ∈ (maybe P).matches' ↔ w = [] ∨ w ∈ P.matches' := Iff.rfl

theorem mem_oneOf : w ∈ (oneOf cs).matches' ↔ ∃ x ∈ cs, w = [x] := by
  induction cs with
  | nil => simp [oneOf, Language.notMem_zero]
  | cons c cs ih =>
    change w = [c] ∨ w ∈ (oneOf cs).matches' ↔ _
    rw [ih]
    simp

theorem mem_exactly : w ∈ (exactly cs).matches' ↔ w = cs := by
  induction cs generalizing w with
  | nil => exact Iff.rfl
  | cons c cs ih =>
    change w ∈ (char c * exactly cs).matches' ↔ _
    simp only [mem_mul, mem_char, ih, exists_eq_left]
    exact eq_comm

theorem mem_star_oneOf : w ∈ (oneOf cs).star.matches' ↔ ∀ x ∈ w, x ∈ cs := by
  rw [matches'_star, Language.mem_kstar]
  constructor
  · rintro ⟨parts, rfl, hparts⟩ x hx
    obtain ⟨part, hpart, hx⟩ := List.mem_flatten.1 hx
    obtain ⟨y, hy, rfl⟩ := mem_oneOf.1 (hparts part hpart)
    rwa [List.mem_singleton.1 hx]
  · intro hw
    refine ⟨w.map fun x => [x], by simp [← List.flatMap_def], fun part hpart => ?_⟩
    obtain ⟨x, hx, rfl⟩ := List.mem_map.1 hpart
    exact mem_oneOf.2 ⟨x, hw x hx, rfl⟩

theorem mem_several_oneOf : w ∈ (several (oneOf cs)).matches' ↔ w ≠ [] ∧ ∀ x ∈ w, x ∈ cs := by
  rw [several, mem_mul]
  constructor
  · rintro ⟨u, hu, v, hv, rfl⟩
    obtain ⟨x, hx, rfl⟩ := mem_oneOf.1 hu
    exact ⟨nofun, List.forall_mem_cons.2 ⟨hx, mem_star_oneOf.1 hv⟩⟩
  · rintro ⟨hne, hall⟩
    obtain ⟨x, rest, rfl⟩ := List.exists_cons_of_ne_nil hne
    rw [List.forall_mem_cons] at hall
    exact ⟨[x], mem_oneOf.2 ⟨x, hall.1, rfl⟩, rest, mem_star_oneOf.2 hall.2, rfl⟩

/-! ### The classes of characters -/

/-- A character of a class is one of the characters with its codes. -/
theorem mem_of_codes {low high : Nat} (h : low ≤ x.toNat ∧ x.toNat ≤ high) :
    x ∈ (List.range' low (high + 1 - low)).map Char.ofNat := by
  refine List.mem_map.2 ⟨x.toNat, List.mem_range'_1.2 (by omega), Char.ofNat_toNat x⟩

theorem isDigit_iff_mem : isDigit x = true ↔ x ∈ "0123456789".toList := by
  constructor
  · intro h
    exact mem_of_codes (Text.isDigit_iff.1 h)
  · intro h
    exact List.all_eq_true.1 (by decide : "0123456789".toList.all isDigit = true) x h

theorem isOctalDigit_iff_mem : isOctalDigit x = true ↔ x ∈ "01234567".toList := by
  constructor
  · intro h
    exact mem_of_codes (Text.isOctalDigit_iff.1 h)
  · intro h
    exact List.all_eq_true.1 (by decide : "01234567".toList.all isOctalDigit = true) x h

theorem isHexDigit_iff_mem : isHexDigit x = true ↔ x ∈ "0123456789abcdefABCDEF".toList := by
  constructor
  · intro h
    have hcases : (48 ≤ x.toNat ∧ x.toNat ≤ 57) ∨ (97 ≤ x.toNat ∧ x.toNat ≤ 102) ∨
        (65 ≤ x.toNat ∧ x.toNat ≤ 70) := by
      simpa [isHexDigit, isDigit, Char.le_def, UInt32.le_iff_toNat_le, or_assoc] using h
    rcases hcases with h | h | h <;> have hmem := mem_of_codes h
    · exact List.mem_append_left "abcdefABCDEF".toList hmem
    · exact List.mem_append_right "0123456789".toList
        (List.mem_append_left "ABCDEF".toList hmem)
    · exact List.mem_append_right "0123456789abcdef".toList hmem
  · intro h
    exact List.all_eq_true.1 (by decide : "0123456789abcdefABCDEF".toList.all isHexDigit = true) x h

theorem isSign_iff_mem : isSign x = true ↔ x ∈ ['+', '-'] := by
  simp [isSign]

theorem all_iff_mem {p : Char → Bool} (hp : ∀ {x}, p x = true ↔ x ∈ cs) :
    w.all p = true ↔ ∀ x ∈ w, x ∈ cs := by
  rw [List.all_eq_true]
  exact forall₂_congr fun _ _ => hp

theorem mem_digits : w ∈ digit.star.matches' ↔ w.all isDigit = true :=
  mem_star_oneOf.trans (all_iff_mem isDigit_iff_mem).symm

theorem mem_several_digits : w ∈ (several digit).matches' ↔ w ≠ [] ∧ w.all isDigit = true :=
  mem_several_oneOf.trans (and_congr_right fun _ => (all_iff_mem isDigit_iff_mem).symm)

/-- A sign may stand in front of what starts with none. -/
theorem mem_maybeSign_mul (hP : ∀ u ∈ P.matches', ∀ x ∈ u.head?, isSign x = false) :
    w ∈ (maybeSign * P).matches' ↔ dropSign w ∈ P.matches' := by
  simp only [maybeSign, mem_mul, mem_maybe, mem_oneOf, ← isSign_iff_mem]
  constructor
  · rintro ⟨sg, hsg, u, hu, rfl⟩
    have hdrop : dropSign (sg ++ u) = u := by
      rcases hsg with rfl | ⟨x, hx, rfl⟩
      · exact Scan.dropSign_append (Nat.zero_le 1) rfl (hP u hu)
      · exact Scan.dropSign_append (Nat.le_refl 1) (by simpa using hx) (hP u hu)
    rwa [hdrop]
  · intro h
    cases w with
    | nil => exact ⟨[], .inl rfl, [], h, rfl⟩
    | cons x rest =>
      by_cases hx : isSign x = true
      · rw [dropSign, if_pos hx] at h
        exact ⟨[x], .inr ⟨x, hx, rfl⟩, rest, h, rfl⟩
      · rw [dropSign, if_neg hx] at h
        exact ⟨[], .inl rfl, x :: rest, h, rfl⟩

/-! ### Integers -/

theorem mem_unsignedInt : w ∈ unsignedInt.matches' ↔ isIntLit w = true := by
  simp only [unsignedInt, mem_add, mem_mul, mem_char, mem_digits, mem_several_oneOf, mem_oneOf,
    ← all_iff_mem isOctalDigit_iff_mem, ← all_iff_mem isHexDigit_iff_mem]
  constructor
  · rintro (((rfl | ⟨_, ⟨x, hx, rfl⟩, ds, hds, rfl⟩) | ⟨_, rfl, ds, ⟨hne, hds⟩, rfl⟩) |
      ⟨_, rfl, _, ⟨_, ⟨x, hx, rfl⟩, ds, ⟨hne, hds⟩, rfl⟩, rfl⟩)
    · decide
    · have hzero : x ≠ '0' := by
        rintro rfl
        exact absurd hx (by decide)
      have hdigit : isDigit x = true := isDigit_iff_mem.2 (List.mem_cons_of_mem _ hx)
      refine Scan.isIntLit_of_digits (by simp [hdigit, hds]) (by simp) ?_
      simp [Scan.isBadOctal, hzero]
    · obtain ⟨y, rest, rfl⟩ := List.exists_cons_of_ne_nil hne
      have hy : ¬ (y = 'x' ∨ y = 'X') := by
        rintro (rfl | rfl) <;> exact absurd hds (by simp [isOctalDigit])
      simpa only [List.singleton_append, isIntLit, if_neg hy] using hds
    · have hx' : x = 'x' ∨ x = 'X' := by simpa using hx
      simpa [isIntLit, hx'] using ⟨hne, List.all_eq_true.1 hds⟩
  · intro hw
    rcases Scan.isIntLit_cases hw with ⟨x, ds, rfl, hx, hne, hds⟩ | ⟨hne, hds, hoct⟩
    · exact .inr ⟨['0'], rfl, x :: ds, ⟨[x], ⟨x, by simpa using hx, rfl⟩, ds, ⟨hne, hds⟩, rfl⟩, rfl⟩
    · obtain ⟨y, rest, rfl⟩ := List.exists_cons_of_ne_nil hne
      rw [List.all_cons, Bool.and_eq_true] at hds
      by_cases hzero : y = '0'
      · subst hzero
        cases rest with
        | nil => exact .inl (.inl (.inl rfl))
        | cons z rest =>
          have hz : ¬ (z = 'x' ∨ z = 'X') := by
            rintro (rfl | rfl) <;> exact absurd hds.2 (by simp [isDigit])
          rw [isIntLit, if_neg hz] at hw
          exact .inl (.inr ⟨['0'], rfl, z :: rest, ⟨List.cons_ne_nil z rest, hw⟩, rfl⟩)
      · refine .inl (.inl (.inr ⟨[y], ⟨y, ?_, rfl⟩, rest, hds.2, rfl⟩))
        have hmem : y ∈ '0' :: "123456789".toList := isDigit_iff_mem.1 hds.1
        exact (List.mem_cons.1 hmem).resolve_left hzero

/-- What matches the expression for integers is one behind its sign. -/
theorem mem_intNumeral : w ∈ intNumeral.matches' ↔ isIntLit (dropSign w) = true := by
  rw [intNumeral, mem_maybeSign_mul, mem_unsignedInt]
  exact fun u hu => Scan.isIntLit_unsigned (mem_unsignedInt.1 hu)

/-! ### Floats -/

theorem mem_exponent : w ∈ exponent.matches' ↔ isExponent w = true := by
  have hdigits : ∀ u ∈ (several digit).matches', ∀ x ∈ u.head?, isSign x = false :=
    fun u hu => Scan.head_digits (mem_several_digits.1 hu).2
  simp only [exponent, mem_mul, mem_oneOf, mem_maybeSign_mul hdigits, mem_several_digits]
  constructor
  · rintro ⟨_, ⟨x, hx, rfl⟩, u, ⟨hne, hall⟩, rfl⟩
    have hx' : x = 'e' ∨ x = 'E' := by simpa using hx
    simpa [isExponent, isDigits, hx', hne] using hall
  · intro hw
    cases w with
    | nil => cases hw
    | cons x rest =>
      have hw' : (x = 'e' ∨ x = 'E') ∧ dropSign rest ≠ [] ∧ (dropSign rest).all isDigit = true := by
        simpa [isExponent, isDigits] using hw
      exact ⟨[x], ⟨x, by simpa using hw'.1, rfl⟩, rest, hw'.2, rfl⟩

theorem mem_maybe_exponent : w ∈ (maybe exponent).matches' ↔ w = [] ∨ isExponent w = true :=
  mem_maybe.trans (or_congr_right mem_exponent)

theorem mem_unsignedFloat : w ∈ unsignedFloat.matches' ↔
    isFloatLit w = true ∨ w = "inf".toList ∨ w = "nan".toList := by
  simp only [unsignedFloat, mem_add, mem_mul, mem_char, mem_exactly, mem_several_digits, mem_digits,
    mem_exponent, mem_maybe_exponent, or_assoc]
  constructor
  · rintro (⟨ds, ⟨hne, hds⟩, _, ⟨_, rfl, _, ⟨fs, hfs, ex, hex, rfl⟩, rfl⟩, rfl⟩ |
      ⟨ds, ⟨hne, hds⟩, ex, hex, rfl⟩ | ⟨_, rfl, _, ⟨fs, ⟨hne, hfs⟩, ex, hex, rfl⟩, rfl⟩ | h)
    · exact .inl (by simpa using Scan.isFloatLit_point hds hfs (.inl hne) hex)
    · exact .inl (Scan.isFloatLit_exponent hds hne hex)
    · have hds : ([] : List Char).all isDigit = true := rfl
      exact .inl (by simpa using Scan.isFloatLit_point hds hfs (.inr hne) hex)
    · exact .inr h
  · rintro (hw | h)
    · obtain ⟨ds, fr, ex, rfl, hds, hfr, hex, hne, hnil⟩ := Scan.isFloatLit_cases hw
      by_cases hds' : ds = []
      · obtain ⟨x, fs, rfl, hx⟩ := hnil hds'
        subst hds'
        obtain ⟨fs', hfs', hall⟩ := hfr.resolve_left nofun
        obtain ⟨-, rfl⟩ := List.cons.inj hfs'
        exact .inr (.inr (.inl ⟨['.'], rfl, _, ⟨x :: fs, ⟨nofun, hall⟩, ex, hex, rfl⟩, rfl⟩))
      · rcases hfr with rfl | ⟨fs, rfl, hfs⟩
        · exact .inr (.inl ⟨ds, ⟨hds', hds⟩, ex,
            hex.resolve_left (hne.resolve_left fun h => h rfl), by simp⟩)
        · exact .inl ⟨ds, ⟨hds', hds⟩, _, ⟨['.'], rfl, _, ⟨fs, hfs, ex, hex, rfl⟩, rfl⟩, by simp⟩
    · exact .inr (.inr (.inr h))

/-- What matches the expression for floats is one behind its sign. -/
theorem mem_floatNumeral : w ∈ floatNumeral.matches' ↔ isFloatLit (dropSign w) = true ∨
    dropSign w = "inf".toList ∨ dropSign w = "nan".toList := by
  rw [floatNumeral, mem_maybeSign_mul, mem_unsignedFloat]
  intro u hu
  rcases mem_unsignedFloat.1 hu with h | rfl | rfl
  · exact Scan.isFloatLit_unsigned h
  · simp [isSign]
  · simp [isSign]

end Spelling

/-! ## Scanning them -/

namespace TokenStream

/-- A number that nothing runs into is scanned, and reading goes on right behind it. -/
theorem scan_number {mode : Mode} {kind : Kind} {w rest : List Char} (s : TokenStream)
    (he : s.source.current.ending = none) (hr : s.source.current.rest.length < s.rounds)
    (hrest : s.source.current.rest = w ++ rest) (hw : isNumber w = true)
    (hk : kind ≠ .stringLit) (h : Scan.Takes mode (w ++ rest) kind w rest) :
    (s.scan mode).1 = .make kind w s.source.current.position ∧
      (s.scan mode).2.source.current = s.source.current.advance w.length := by
  obtain ⟨x, more, hx, hblank, hslash⟩ : Shows (String.ofList w) := shows_number (by simpa using hw)
  rw [String.toList_ofList] at hx
  have hbare : ∀ y ∈ s.source.current.rest.head?, Scan.isBlank y = false ∧ y ≠ '/' := by
    rw [hrest, hx]
    rintro _ ⟨⟩
    exact ⟨hblank, hslash⟩
  obtain ⟨e, htoken, -, -, hscan⟩ := s.scan_of_takes he hr hbare (hrest ▸ h)
  obtain ⟨u, hu, hcovers⟩ := (Scan.token_verbatim mode _).ok htoken hk rfl
  obtain rfl : u = w := by simpa [Token.make] using hu.symm
  exact ⟨by rw [hscan], by rw [hscan]; exact hcovers.1⟩

/-- Where a digit stands, a number is handed out or an error. -/
theorem scan_digit (mode : Mode) (s : TokenStream) (he : s.source.current.ending = none)
    (hr : s.source.current.rest.length < s.rounds)
    (hd : (s.scan mode).2.source.marked.rest.head?.any isDigit = true) :
    (s.scan mode).1.kind = .intLit ∨ (s.scan mode).1.kind = .floatLit ∨
      (s.scan mode).1.kind = .illegal ∧ (s.scan mode).1.error ≠ none := by
  obtain ⟨t, ts, d, e, hgets, hscan⟩ := s.scan_gets mode he hr
  rw [hscan] at hd ⊢
  obtain ⟨x, hx, hdigit⟩ := (Option.any_eq_true _ _).1 hd
  obtain ⟨more, hrest⟩ : ∃ more, d.rest = x :: more := List.head?_eq_some_iff.1 hx
  rcases hgets.read with htoken | ⟨y, rest, hslash, -⟩
  · rw [Scan.token_of_digit mode hrest (Text.isIdentStart_of_isDigit hdigit) hdigit] at htoken
    cases (Scan.number_counts hrest hdigit (by rfl)).ok htoken with
    | intLit => exact .inl rfl
    | floatLit => exact .inr (.inl rfl)
    | malformed => exact .inr (.inr ⟨rfl, nofun⟩)
  · rw [hslash] at hrest
    obtain ⟨rfl, -⟩ := List.cons.inj hrest
    exact absurd hdigit (by decide)

/-- **Numbers are what the grammar's expressions match.** On every text, after any calls and under every
mode: what is handed out as a number matches its expression; where a digit stands at the mark, from which
the token was read, it is a number or carries an error; and where numbers are wanted, what matches an
expression is handed out whole if neither a point nor a character of a word follows, and reading goes on
right behind it. -/
theorem numbers_scanned (chars : List Char) (file : String) (cs : List Call) (mode : Mode) :
    let s := ((ofBytes (Utf8.encode chars) file).calls cs).2
    let here := s.source.current
    let t := (s.scan mode).1
    let s' := (s.scan mode).2
    (t.kind = .intLit → t.text.toList ∈ intNumeral.matches') ∧
    (t.kind = .floatLit → t.text.toList ∈ floatNumeral.matches') ∧
    (s'.source.marked.rest.head?.any isDigit = true →
      t.kind = .intLit ∨ t.kind = .floatLit ∨ t.kind = .illegal ∧ t.error ≠ none) ∧
    (mode.numbers = true → ∀ w rest, here.rest = w ++ rest →
      (∀ x ∈ rest.head?, x ≠ '.' ∧ isIdentChar x = false) →
      (w ∈ intNumeral.matches' →
        t = .make .intLit w here.position ∧ s'.source.current = here.advance w.length) ∧
      (w ∈ floatNumeral.matches' →
        t = .make .floatLit w here.position ∧ s'.source.current = here.advance w.length)) := by
  intro s here t s'
  have he : s.source.current.ending = none := by
    have hwithin : (ofBytes (Utf8.encode chars) file).Within (Cursor.ofBytes (Utf8.encode chars) file) :=
      Source.within_ofBytes _ file
    rw [(hwithin.calls cs).2.current.ending_eq, Cursor.ofBytes_encode]
  have hr : s.source.current.rest.length < s.rounds := length_lt_rounds_calls cs _ file
  have hspelled : t.Spelled := s.spelled_scan mode
  refine ⟨fun hk => ?_, fun hk => ?_, s.scan_digit mode he hr, fun hn w rest hrest hstop => ?_⟩
  · rw [Token.Spelled, hk] at hspelled
    exact mem_intNumeral.2 hspelled
  · rw [Token.Spelled, hk] at hspelled
    exact mem_floatNumeral.2 hspelled
  have htail : Scan.StopsNumber rest := by
    intro x hx
    simp [Scan.isNumberTail, hstop x hx]
  refine ⟨fun hw => ?_, fun hw => ?_⟩
  · have hint := mem_intNumeral.1 hw
    exact s.scan_number he hr hrest (by simp [isNumber, hint]) (by decide)
      (Scan.takes_intLit hn hint htail)
  · have hfloat := mem_floatNumeral.1 hw
    refine s.scan_number he hr hrest ?_ (by decide) (Scan.takes_floatLit hn hfloat htail)
    simp only [isNumber, Bool.or_eq_true, beq_iff_eq, or_assoc]
    exact .inr hfloat

/-- A signed hexadecimal number in front of a bracket. -/
theorem numbers_scanned_sample :
    let s := ofBytes (Utf8.encode "-0x1F]".toList) ""
    (s.scan .literal).1 = .make .intLit "-0x1F".toList s.source.current.position ∧
      (s.scan .literal).2.source.current = s.source.current.advance 5 := by
  have hstop : ∀ x ∈ [']'].head?, x ≠ '.' ∧ isIdentChar x = false := by
    rintro x ⟨⟩
    decide
  have hscanned := (numbers_scanned "-0x1F]".toList "" [] .literal).2.2.2 rfl "-0x1F".toList [']']
    (by decide +kernel) hstop
  exact hscanned.1 (mem_intNumeral.2 (by decide +kernel))

end TokenStream

end ProtoIdl
