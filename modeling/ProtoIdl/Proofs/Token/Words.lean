import ProtoIdl.Proofs.Token.Lexeme
import ProtoIdl.Proofs.Token.Spelling
/-!
# What is read where a word stands

First strings, then what the next token is on a text that starts with a word:
`Scan.Takes mode text kind w rest` says that under the mode it is `w`, of the given kind, and that
`rest` is left. Main statements: `Scan.takes_ident`, `Scan.takes_delimiter`, `Scan.takes_int`,
`Scan.takes_number` and `Scan.takes_string`.
-/
namespace ProtoIdl.Scan

open Spelling
open Text (isDigit isOctalDigit isHexDigit isIdentStart isIdentChar)

/-! ## Strings -/

section
variable {q x : Char} {n : Nat} {w rest tail : List Char}

/-- A hexadecimal digit is no character that means something in a string. -/
theorem isHexDigit_ne (hq : isQuote q = true) (hx : isHexDigit x = true) :
    x ≠ q ∧ x ≠ '\\' ∧ x ≠ '\n' := by
  refine ⟨?_, ?_, ?_⟩
  · rintro rfl
    simp only [isQuote, Bool.or_eq_true, beq_iff_eq] at hq
    rcases hq with rfl | rfl <;> exact absurd hx (by decide)
  · rintro rfl
    exact absurd hx (by decide)
  · rintro rfl
    exact absurd hx (by decide)

theorem isQuote_ne (hq : isQuote q = true) : '\\' ≠ q ∧ q ≠ '\n' := by
  simp only [isQuote, Bool.or_eq_true, beq_iff_eq] at hq
  rcases hq with rfl | rfl <;> decide

/-- A string ends with its quote, or goes on with a plain character or with an escape. -/
theorem closes_cases (h : closes q 0 w = true) : w = [q] ∨
    (∃ x rest, w = x :: rest ∧ x ≠ q ∧ x ≠ '\n' ∧ x ≠ '\\' ∧ closes q 0 rest = true) ∨
      ∃ x rest n, w = '\\' :: x :: rest ∧ escapeDigits? x = some n ∧ closes q n rest = true := by
  unfold closes at h
  split at h
  · cases h
  · contradiction
  · next x rest heq =>
    split at h
    · next n hn => exact .inr (.inr ⟨x, rest, n, rfl, hn, h⟩)
    · cases h
  · next x rest _ _ =>
    split at h
    · next hx => exact .inl (by rw [hx, List.isEmpty_iff.1 h])
    · next hx =>
      simp only [Bool.and_eq_true, bne_iff_ne] at h
      exact .inr (.inl ⟨x, rest, rfl, hx, h.1.1, h.1.2, h.2⟩)

theorem closes_ne_nil (h : closes q n w = true) : w ≠ [] := by
  rintro rfl
  cases n <;> cases h

theorem closes_of_digits (h : closes q (n + 1) w = true) :
    ∃ x rest, w = x :: rest ∧ isHexDigit x = true ∧ closes q n rest = true := by
  obtain ⟨x, rest, rfl⟩ := List.exists_cons_of_ne_nil (closes_ne_nil h)
  rw [closes, Bool.and_eq_true] at h
  exact ⟨x, rest, rfl, h⟩

/-- Digits that an escape takes may be taken as plain characters instead. -/
theorem closes_tail (hq : isQuote q = true) (hx : isHexDigit x = true)
    (h : closes q 0 (x :: rest) = true) : closes q 0 rest = true := by
  obtain ⟨hxq, hxb, -⟩ := isHexDigit_ne hq hx
  rcases closes_cases h with h | ⟨y, rest', h, -, -, -, hrest⟩ | ⟨y, rest', n, h, -, -⟩
  · exact absurd (List.cons.inj h).1 hxq
  · exact (List.cons.inj h).2 ▸ hrest
  · exact absurd (List.cons.inj h).1 hxb

/-- The digits found next, `n` at most, are in front of the quote. -/
theorem closes_takeWhile {p : Char → Bool} (tail : List Char) (hq : isQuote q = true)
    (hp : ∀ x, p x = true → isHexDigit x = true) (n : Nat) (h : closes q 0 w = true) :
    ∃ k ≤ w.length, ((w ++ tail).take n).takeWhile p = w.take k ∧ closes q 0 (w.drop k) = true := by
  induction n generalizing w with
  | zero => exact ⟨0, Nat.zero_le _, rfl, h⟩
  | succ n ih =>
    obtain ⟨x, rest, rfl⟩ := List.exists_cons_of_ne_nil (closes_ne_nil h)
    by_cases hx : p x = true
    · obtain ⟨k, hk, htake, hdrop⟩ := ih (closes_tail hq (hp x hx) h)
      exact ⟨k + 1, by simpa using hk, by simp [hx, htake], hdrop⟩
    · exact ⟨0, Nat.zero_le _, by simp [hx], h⟩

/-- The digits that an escape needs are found. -/
theorem closes_take (tail : List Char) (h : closes q n w = true) : n ≤ w.length ∧
    ((w ++ tail).take n).takeWhile isHexDigit = w.take n ∧ closes q 0 (w.drop n) = true := by
  induction n generalizing w with
  | zero => exact ⟨Nat.zero_le _, rfl, h⟩
  | succ n ih =>
    obtain ⟨x, rest, rfl, hx, h⟩ := closes_of_digits h
    obtain ⟨hle, htake, hdrop⟩ := ih h
    exact ⟨by simpa using hle, by simp [hx, htake], hdrop⟩

theorem reads_upTo_take {p : Char → Bool} {k : Nat} (hk : k ≤ w.length)
    (h : ((w ++ tail).take n).takeWhile p = w.take k) :
    Reads (upTo n p) (w ++ tail) (w.take k) (w.drop k ++ tail) := by
  have hread := reads_upTo n p (w ++ tail)
  rwa [h, List.length_take_of_le hk, List.drop_append_of_le_length hk] at hread

theorem isHexDigit_of_isOctalDigit (h : isOctalDigit x = true) : isHexDigit x = true :=
  Text.isHexDigit_of_isDigit (Text.isDigit_of_isOctalDigit h)

/-- The characters behind the backslash of an escape, and the digits that are needed behind them. -/
theorem escapeDigits?_cases (h : escapeDigits? x = some n) :
    isSimpleEscape x = true ∧ n = 0 ∨
    ¬isSimpleEscape x = true ∧ isOctalDigit x = true ∧ n = 0 ∨
    ¬isSimpleEscape x = true ∧ ¬isOctalDigit x = true ∧ (x = 'x' ∨ x = 'X') ∧ n = 1 ∨
    ¬isSimpleEscape x = true ∧ ¬isOctalDigit x = true ∧ ¬(x = 'x' ∨ x = 'X') ∧
      (x = 'u' ∨ x = 'U') ∧ n = if x = 'u' then 4 else 8 := by
  unfold escapeDigits? at h
  split_ifs at h with hplain hx hu hU
  · obtain rfl := Option.some.inj h
    by_cases hs : isSimpleEscape x = true
    · exact .inl ⟨hs, rfl⟩
    · exact .inr (.inl ⟨hs, by simpa [hs] using hplain, rfl⟩)
  all_goals
    rw [Bool.or_eq_true, not_or] at hplain
    obtain rfl := Option.some.inj h
  · exact .inr (.inr (.inl ⟨hplain.1, hplain.2, hx, rfl⟩))
  · exact .inr (.inr (.inr ⟨hplain.1, hplain.2, hx, .inl hu, (if_pos hu).symm⟩))
  · exact .inr (.inr (.inr ⟨hplain.1, hplain.2, hx, .inr hU, (if_neg hu).symm⟩))

/-- An escape is read with as many digits as belong to it; the string goes on behind them. -/
theorem reads_escape (tail : List Char) (hq : isQuote q = true) (hx : escapeDigits? x = some n)
    (h : closes q n rest = true) : ∃ k ≤ rest.length, closes q 0 (rest.drop k) = true ∧
      Reads escape (x :: rest ++ tail) (.valid (x :: rest.take k)) (rest.drop k ++ tail) := by
  have hskip : (x :: rest ++ tail).drop 1 = rest ++ tail := rfl
  rcases escapeDigits?_cases hx with ⟨hs, rfl⟩ | ⟨hs, ho, rfl⟩ | ⟨hs, ho, hX, rfl⟩ |
    ⟨hs, ho, hX, hU, hn⟩
  · refine ⟨0, Nat.zero_le _, h, (reads_peek _).bind ((reads_skip 1 _).bind ?_)⟩
    rw [hskip, if_pos hs]
    exact reads_pure _ _
  · obtain ⟨k, hk, htake, hdrop⟩ := closes_takeWhile tail hq
      (fun _ => isHexDigit_of_isOctalDigit) 2 h
    refine ⟨k, hk, hdrop, (reads_peek _).bind ((reads_skip 1 _).bind ?_)⟩
    rw [hskip, if_neg hs, if_pos ho]
    exact (reads_upTo_take hk htake).bind (reads_pure _ _)
  · -- the first digit is needed, the second one is taken if it is there
    obtain ⟨y, rest, rfl, hy, h⟩ := closes_of_digits h
    obtain ⟨k, hk, htake, hdrop⟩ := closes_takeWhile tail hq (fun _ h => h) 1 h
    have hk' : k + 1 ≤ (y :: rest).length := by simpa using hk
    have htake' : ((y :: rest ++ tail).take 2).takeWhile isHexDigit =
        (y :: rest).take (k + 1) := by
      simpa [hy] using htake
    refine ⟨k + 1, hk', hdrop, (reads_peek _).bind ((reads_skip 1 _).bind ?_)⟩
    rw [hskip, if_neg hs, if_neg ho, if_pos hX]
    exact (reads_upTo_take hk' htake').bind (reads_pure _ _)
  · obtain ⟨hle, htake, hdrop⟩ := closes_take tail h
    refine ⟨n, hle, hdrop, (reads_peek _).bind ((reads_skip 1 _).bind ?_)⟩
    rw [hskip, if_neg hs, if_neg ho, if_neg hX, if_pos hU, ← hn]
    refine (reads_upTo_take hle htake).bind ?_
    rw [if_pos (List.length_take_of_le hle)]
    exact reads_pure _ _

/-- The rest of a string is read up to its quote. -/
theorem reads_body (tail : List Char) (hq : isQuote q = true) (rounds : Nat) (latest : List Char)
    (h : closes q 0 w = true) (hw : w.length ≤ rounds) : ∃ inner, w = inner ++ [q] ∧
      Reads (body q q rounds latest) (w ++ tail) (.closed (inner.reverse ++ latest)) tail := by
  induction rounds generalizing w latest with
  | zero => exact absurd (List.eq_nil_of_length_eq_zero (by omega)) (closes_ne_nil h)
  | succ rounds ih =>
    rcases closes_cases h with rfl | ⟨x, rest, rfl, hxq, hxn, hxb, hrest⟩ |
      ⟨x, rest, n, rfl, hx, hrest⟩
    · refine ⟨[], rfl, (reads_peek _).bind (reads_get_bind fun c _ => (reads_skip 1 _).bind ?_)⟩
      rw [if_neg (isQuote_ne hq).2, if_pos rfl]
      exact reads_pure _ _
    · obtain ⟨inner, rfl, hread⟩ := ih (x :: latest) hrest (by simpa using hw)
      refine ⟨x :: inner, rfl, (reads_peek _).bind
        (reads_get_bind fun c _ => (reads_skip 1 _).bind ?_)⟩
      rw [if_neg hxn, if_neg hxq, if_neg hxb, if_neg hxq]
      simpa using hread
    · obtain ⟨k, hk, hdrop, hescape⟩ := reads_escape tail hq hx hrest
      have hlen : (rest.drop k).length ≤ rounds := by
        simp only [List.length_cons, List.length_drop] at hw ⊢
        omega
      obtain ⟨inner, hinner, hread⟩ := ih ((x :: rest.take k).reverse ++ '\\' :: latest) hdrop hlen
      have hrest : rest = rest.take k ++ (inner ++ [q]) := by
        rw [← hinner, List.take_append_drop]
      refine ⟨'\\' :: x :: rest.take k ++ inner, ?_, (reads_peek _).bind
        (reads_get_bind fun c _ => (reads_skip 1 _).bind ?_)⟩
      · conv => lhs; rw [hrest]
        simp
      · have hn : '\\' ≠ '\n' := by decide
        rw [if_neg hn, if_neg (isQuote_ne hq).1, if_pos rfl]
        refine hescape.bind ?_
        simpa using hread

/-- A string is read to the next character that is not blank, if no other string starts there. -/
theorem reads_string {start : Position} (h : isStrLit (q :: w) = true)
    (ht : ∀ x ∈ (tail.dropWhile isBlank).head?, isQuote x = false) :
    Reads (string q start) (q :: w ++ tail) (.make .stringLit (q :: w) start)
      (tail.dropWhile isBlank) := by
  rw [isStrLit, Bool.and_eq_true] at h
  refine reads_get_bind fun c hc => ?_
  rw [hc]
  obtain ⟨inner, rfl, hread⟩ := reads_body tail h.1
    ((q :: w ++ tail).length) [] h.2 (by simp; omega)
  refine reads_here_bind fun p => (reads_peek _).bind ((reads_skip 1 _).bind (hread.bind
    ((reads_run isBlank tail).bind ((reads_peek _).bind ?_))))
  have htoken : quotedToken q (inner.reverse ++ []) start =
      .make .stringLit (q :: (inner ++ [q])) start := by
    simp [quotedToken]
  rw [htoken]
  cases hd : tail.dropWhile isBlank with
  | nil => exact reads_pure _ _
  | cons x rest =>
    rw [List.head?_cons]
    dsimp only
    rw [ht x (by rw [hd]; rfl)]
    exact reads_pure _ _

end

/-! ## Tokens -/

/-- On a text without ill-formed octets the token is `w`, of the given kind, and `rest` is left. -/
def Takes (mode : Mode) (text : List Char) (kind : Kind) (w rest : List Char) : Prop :=
  ∀ c : Cursor, c.ending = none → c.rest = text → ∃ d,
    token mode c = .ok (.make kind w c.position, d) ∧ d.ending = none ∧ d.rest = rest

section
variable {mode : Mode} {x : Char} {sign w tail : List Char}

/-- What is read in the place of a token is the token. -/
theorem takes_of_reads {kind : Kind} {text rest : List Char} (step : Position → Scan Token)
    (h : ∀ c : Cursor, c.rest = text → token mode c = step c.position c)
    (hstep : ∀ p, Reads (step p) text (.make kind w p) rest) : Takes mode text kind w rest := by
  intro c he hc
  rw [h c hc]
  exact hstep c.position c he hc

theorem takes_eof (mode : Mode) : Takes mode [] .eof [] [] := fun c he hc =>
  ⟨c, token_of_nil mode (by rw [peek_of_whole he, hc]; rfl), he, hc⟩

theorem takes_ident (mode : Mode) (hw : isIdent w = true)
    (ht : ∀ x ∈ tail.head?, isIdentChar x = false) :
    Takes mode (w ++ tail) (wordKind mode (String.ofList w)) w tail := by
  cases w with
  | nil => cases hw
  | cons x rest =>
    exact takes_of_reads (word mode)
      (fun c hc => token_of_identStart mode hc (Bool.and_eq_true_iff.1 hw).1) fun p =>
        (reads_run_append (all_of_isIdent hw) ht).bind (reads_pure _ _)

theorem isIdentStart_of_delimiter {d : Delimiter} (hx : Delimiter.ofChar? x = some d) :
    isIdentStart x = false ∧ isDigit x = false := by
  unfold Delimiter.ofChar? at hx
  split at hx
  all_goals cases hx <;> decide

/-- A delimiter is a token by itself, unless it is wanted as a part of a string or of a number. -/
theorem takes_delimiter {d : Delimiter} (hx : Delimiter.ofChar? x = some d)
    (hs : (isQuote x && mode.strings) = false)
    (hn : (mode.numbers && (x == '-' || x == '+' || x == '.')) = false) :
    Takes mode (x :: tail) (.delimiter d) [x] tail := by
  obtain ⟨hstart, hdigit⟩ := isIdentStart_of_delimiter hx
  intro c he hc
  have hsingle : single x c.position = .make (.delimiter d) [x] c.position := by
    simp only [single, hx]
  refine ⟨c.advance 1, ?_, he, by rw [Cursor.rest_advance, hc, List.drop_one, List.tail_cons]⟩
  rw [token_of_single mode hc hstart hdigit hs hn, hsingle]

/-- A number without a sign is read under every mode if it starts with a digit. -/
theorem takes_unsigned {kind : Kind} (mode : Mode) (hd : ∀ x ∈ w.head?, isDigit x = true)
    (hne : w ≠ []) (h : ∀ p, Reads (number [] p) (w ++ tail) (.make kind w p) tail) :
    Takes mode (w ++ tail) kind w tail := by
  obtain ⟨x, rest, rfl⟩ := List.exists_cons_of_ne_nil hne
  have hx := hd x rfl
  exact takes_of_reads (number [])
    (fun c hc => token_of_digit mode hc (Text.isIdentStart_of_isDigit hx) hx) h

theorem isIntLit_digit (hw : isIntLit w = true) : w ≠ [] ∧ ∀ x ∈ w.head?, isDigit x = true := by
  rcases isIntLit_cases hw with ⟨x, rest, rfl, -⟩ | ⟨hne, hall, -⟩
  · refine ⟨by simp, ?_⟩
    rintro _ ⟨⟩
    decide
  · exact ⟨hne, fun x hx => List.all_eq_true.1 hall x (List.mem_of_mem_head? hx)⟩

theorem takes_int (mode : Mode) (hw : isIntLit w = true) (ht : StopsNumber tail) :
    Takes mode (w ++ tail) .intLit w tail :=
  takes_unsigned mode (isIntLit_digit hw).2 (isIntLit_digit hw).1 fun _ =>
    reads_int [] _ hw rfl ht

theorem isSign_cases (hx : isSign x = true) : x = '+' ∨ x = '-' := by
  simpa [isSign] using hx

/-- A sign is read together with the number behind it. -/
theorem takes_sign {kind : Kind} (hn : mode.numbers = true) (hx : isSign x = true)
    (h : ∀ p, Reads (signed x p) (w ++ tail) (.make kind (x :: w) p) tail) :
    Takes mode (x :: w ++ tail) kind (x :: w) tail := by
  have hsign : (mode.numbers && (x == '-' || x == '+')) = true := by
    rw [hn, Bool.or_comm]
    exact hx
  have hplain : isIdentStart x = false ∧ isDigit x = false ∧ isQuote x = false := by
    rcases isSign_cases hx with rfl | rfl <;> decide
  refine takes_of_reads (fun p => skip 1 >>= fun _ => signed x p) (fun c hc => ?_)
    fun p => (reads_skip 1 _).bind (h p)
  rw [token, run_bind (run_here c), run_bind (run_peek (Cursor.peek_of_rest hc))]
  simp only [hplain, hsign, Bool.false_and, Bool.false_eq_true, if_false, if_true]

/-- A sign in front of a blank or of another sign is a token of its own. -/
theorem takes_sign_alone {d : Delimiter} (hn : mode.numbers = true) (hx : isSign x = true)
    (hd : Delimiter.ofChar? x = some d)
    (ht : ∀ y ∈ tail.head?, isBlank y = true ∨ isSign y = true) :
    Takes mode (x :: tail) (.delimiter d) [x] tail := by
  have hsingle (p : Position) : Token.make (.delimiter d) [x] p = single x p := by
    rw [single, hd]
  refine takes_sign (w := []) hn hx fun p => ?_
  refine (reads_peek _).bind ?_
  rw [hsingle, List.nil_append]
  cases tail with
  | nil => exact reads_pure _ _
  | cons y rest =>
    have hy : isDigit y = false ∧ y ≠ '.' ∧ isIdentStart y = false := by
      rcases ht y rfl with hblank | hsign
      · simp only [isBlank, Bool.or_eq_true, beq_iff_eq, or_assoc] at hblank
        rcases hblank with rfl | rfl | rfl | rfl <;> decide
      · rcases isSign_cases hsign with rfl | rfl <;> decide
    simp only [List.head?_cons, hy, Bool.false_eq_true, if_false]
    exact reads_pure _ _

theorem reads_signed_digit {kind : Kind} {p : Position} (hne : w ≠ [])
    (hd : ∀ y ∈ w.head?, isDigit y = true)
    (h : Reads (number [x] p) (w ++ tail) (.make kind (x :: w) p) tail) :
    Reads (signed x p) (w ++ tail) (.make kind (x :: w) p) tail := by
  obtain ⟨y, rest, rfl⟩ := List.exists_cons_of_ne_nil hne
  refine (reads_peek _).bind ?_
  rw [List.cons_append, List.head?_cons]
  dsimp only
  rw [if_pos (hd y rfl)]
  exact h

/-- Whether a word is read as a number where numbers are wanted. -/
theorem wordKind_number (hn : mode.numbers = true) (hw : w = "inf".toList ∨ w = "nan".toList) :
    wordKind mode (String.ofList w) = .floatLit := by
  rcases hw with rfl | rfl <;> simp [wordKind, hn]

theorem isIdent_of_special (hw : w = "inf".toList ∨ w = "nan".toList) : isIdent w = true := by
  rcases hw with rfl | rfl <;> decide +kernel

theorem stops_ident (ht : StopsNumber tail) : ∀ x ∈ tail.head?, isIdentChar x = false :=
  fun x hx => (Bool.or_eq_false_iff.1 (ht x hx)).1

theorem reads_signed_special {p : Position} (hw : w = "inf".toList ∨ w = "nan".toList)
    (ht : StopsNumber tail) :
    Reads (signed x p) (w ++ tail) (.make .floatLit (x :: w) p) tail := by
  have hall : w.all isIdentChar = true := by
    rcases hw with rfl | rfl <;> decide +kernel
  have hkind : (String.ofList w == "inf" || String.ofList w == "nan") = true := by
    rcases hw with rfl | rfl <;> simp
  obtain ⟨y, rest, hy, hplain⟩ : ∃ y rest, w = y :: rest ∧ isDigit y = false ∧ y ≠ '.' ∧
      isIdentStart y = true := by
    rcases hw with rfl | rfl
    · exact ⟨'i', "nf".toList, by simp, by decide⟩
    · exact ⟨'n', "an".toList, by simp, by decide⟩
  refine (reads_peek _).bind ?_
  rw [hy, List.cons_append, List.head?_cons, ← List.cons_append, ← hy]
  simp only [hplain, Bool.false_eq_true, if_false, if_true]
  refine (reads_run_append hall (stops_ident ht)).bind ?_
  rw [hkind]
  exact reads_pure _ _

theorem reads_signed_pointed {p : Position} {y : Char} {rest : List Char}
    (hw : isFloatLit ('.' :: y :: rest) = true) (ht : StopsNumber tail) :
    Reads (signed x p) ('.' :: y :: rest ++ tail) (.make .floatLit (x :: '.' :: y :: rest) p)
      tail := by
  obtain ⟨hy, hread⟩ := reads_pointed [x] p hw ht
  have hdigit : isDigit '.' = false := by decide
  refine (reads_peek _).bind ?_
  rw [List.cons_append, List.head?_cons]
  simp only [hdigit, Bool.false_eq_true, if_false, if_true]
  refine (reads_peekSecond _).bind ?_
  rw [List.drop_one, List.tail_cons, List.cons_append, List.head?_cons, Option.any_some, if_pos hy]
  exact (reads_skip 1 _).bind hread

/-- A float that starts with its point. -/
theorem takes_pointed {y : Char} {rest : List Char} (hn : mode.numbers = true)
    (hw : isFloatLit ('.' :: y :: rest) = true) (ht : StopsNumber tail) :
    Takes mode ('.' :: y :: rest ++ tail) .floatLit ('.' :: y :: rest) tail := by
  have hplain : isIdentStart '.' = false ∧ isDigit '.' = false ∧ isQuote '.' = false := by decide
  have hsign : ('.' == '-' || '.' == '+') = false := by decide
  refine takes_of_reads (fun p => skip 1 >>= fun _ => peek >>= fun o =>
    if o.any isDigit then fraction ['.'] p else pure (single '.' p)) (fun c hc => ?_) fun p => ?_
  · rw [token, run_bind (run_here c), run_bind (run_peek (Cursor.peek_of_rest hc))]
    simp only [hplain, hsign, hn, Bool.false_and, Bool.and_false, Bool.false_eq_true, if_false,
      Bool.true_and, beq_self_eq_true, if_true]
  · obtain ⟨hy, hread⟩ := reads_pointed [] p hw ht
    refine (reads_skip 1 _).bind ((reads_peek _).bind ?_)
    rw [List.cons_append, List.drop_one, List.tail_cons, List.cons_append, List.head?_cons,
      Option.any_some, if_pos hy]
    exact hread

/-- A float starts with a digit or with its point. -/
theorem isFloatLit_head (hw : isFloatLit w = true) : (w ≠ [] ∧ ∀ x ∈ w.head?, isDigit x = true) ∨
    ∃ x rest, w = '.' :: x :: rest := by
  obtain ⟨ds, fr, ex, rfl, hds, -, -, -, hnil⟩ := isFloatLit_cases hw
  cases ds with
  | nil =>
    obtain ⟨x, fs, rfl, -⟩ := hnil rfl
    exact .inr ⟨x, fs ++ ex, rfl⟩
  | cons x ds =>
    refine .inl ⟨by simp, ?_⟩
    rintro _ ⟨⟩
    exact (Bool.and_eq_true_iff.1 hds).1

/-- An integer behind a sign. -/
theorem takes_signed_int (hn : mode.numbers = true) (hx : isSign x = true)
    (hw : isIntLit w = true) (ht : StopsNumber tail) :
    Takes mode (x :: w ++ tail) .intLit (x :: w) tail :=
  takes_sign hn hx fun _ => reads_signed_digit (isIntLit_digit hw).1 (isIntLit_digit hw).2
    (reads_int [x] _ hw (by simp [hx]) ht)

theorem takes_signed_float (hn : mode.numbers = true) (hx : isSign x = true)
    (hw : isFloatLit w = true) (ht : StopsNumber tail) :
    Takes mode (x :: w ++ tail) .floatLit (x :: w) tail := by
  refine takes_sign hn hx fun p => ?_
  rcases isFloatLit_head hw with ⟨hne, hd⟩ | ⟨y, rest, rfl⟩
  · exact reads_signed_digit hne hd (reads_float [x] _ hw hd ht)
  · exact reads_signed_pointed hw ht

theorem takes_float (hn : mode.numbers = true) (hw : isFloatLit w = true) (ht : StopsNumber tail) :
    Takes mode (w ++ tail) .floatLit w tail := by
  rcases isFloatLit_head hw with ⟨hne, hd⟩ | ⟨y, rest, rfl⟩
  · exact takes_unsigned mode hd hne fun p => reads_float [] _ hw hd ht
  · exact takes_pointed hn hw ht

theorem isNumber_cases (hw : isNumber w = true) : isIntLit (dropSign w) = true ∨
    isFloatLit (dropSign w) = true ∨ dropSign w = "inf".toList ∨ dropSign w = "nan".toList := by
  simpa [isNumber, or_assoc] using hw

/-- An integer is one token with its sign where numbers are wanted. -/
theorem takes_intLit (hn : mode.numbers = true) (hw : isIntLit (dropSign w) = true)
    (ht : StopsNumber tail) : Takes mode (w ++ tail) .intLit w tail := by
  cases w with
  | nil => cases hw
  | cons x rest =>
    rw [dropSign] at hw
    by_cases hx : isSign x = true
    · rw [if_pos hx] at hw
      exact takes_signed_int hn hx hw ht
    · rw [if_neg hx] at hw
      exact takes_int mode hw ht

/-- So is a float. -/
theorem takes_floatLit (hn : mode.numbers = true) (hw : isFloatLit (dropSign w) = true ∨
    dropSign w = "inf".toList ∨ dropSign w = "nan".toList) (ht : StopsNumber tail) :
    Takes mode (w ++ tail) .floatLit w tail := by
  cases w with
  | nil => exact absurd hw (by decide +kernel)
  | cons x rest =>
    rw [dropSign] at hw
    by_cases hx : isSign x = true
    · rw [if_pos hx] at hw
      rcases hw with h | h
      · exact takes_signed_float hn hx h ht
      · exact takes_sign hn hx fun _ => reads_signed_special h ht
    · rw [if_neg hx] at hw
      rcases hw with h | h
      · exact takes_float hn h ht
      · have htakes := takes_ident mode (isIdent_of_special h) (stops_ident ht)
        rwa [wordKind_number hn h] at htakes

/-- A number is one token where numbers are wanted. -/
theorem takes_number (tail : List Char) (hn : mode.numbers = true) (hw : isNumber w = true)
    (ht : StopsNumber tail) :
    ∃ kind ∈ [Kind.intLit, .floatLit], Takes mode (w ++ tail) kind w tail := by
  rcases isNumber_cases hw with h | h
  · exact ⟨.intLit, by simp, takes_intLit hn h ht⟩
  · exact ⟨.floatLit, by simp, takes_floatLit hn h ht⟩

/-- A string is one token where strings are wanted, if no other string follows. -/
theorem takes_string (hs : mode.strings = true) (hw : isStrLit w = true)
    (ht : ∀ x ∈ (tail.dropWhile isBlank).head?, isQuote x = false) :
    Takes mode (w ++ tail) .stringLit w (tail.dropWhile isBlank) := by
  cases w with
  | nil => cases hw
  | cons q rest =>
    have hq : isQuote q = true := (Bool.and_eq_true_iff.1 hw).1
    have hplain : isIdentStart q = false ∧ isDigit q = false := by
      simp only [isQuote, Bool.or_eq_true, beq_iff_eq] at hq
      rcases hq with rfl | rfl <;> decide
    refine takes_of_reads (string q) (fun c hc => ?_) fun p => reads_string hw ht
    rw [token, run_bind (run_here c), run_bind (run_peek (Cursor.peek_of_rest hc))]
    simp only [hplain, hq, hs, Bool.and_self, Bool.false_eq_true, if_false, if_true]

end

end ProtoIdl.Scan
