import ProtoIdl.Proofs.Token.Lexeme
import ProtoIdl.Proofs.Token.Spelled
/-!
# A token is what stands in the text

A token that carries no error is made of the characters between its start and the place where the
next token is looked for. Strings are joined from their literals and are not looked at here; a line
comment leaves out the carriage returns at its end. `Scan.Extends chars x` says of a step that it goes
on with a token of which `chars` were read before. Main statements: `Scan.token_verbatim` and
`Scan.comment_verbatim`.
-/
namespace ProtoIdl

open Text (isDigit isHexDigit isIdentStart isIdentChar)

namespace Cursor

/-- From `c` to `d` there is white space only. -/
def Spaces (c d : Cursor) : Prop := ∃ w, w.all Scan.isBlank = true ∧ c.Covers w d

variable {c d e : Cursor}

theorem Spaces.refl (c : Cursor) : c.Spaces c := ⟨[], rfl, .refl c⟩

theorem Spaces.trans (h : c.Spaces d) (h' : d.Spaces e) : c.Spaces e := by
  obtain ⟨u, hu, hcover⟩ := h
  obtain ⟨v, hv, hcover'⟩ := h'
  exact ⟨u ++ v, by rw [List.all_append, hu, hv]; rfl, hcover.trans hcover'⟩

theorem Spaces.reaches (h : c.Spaces d) : c.Reaches d := by
  obtain ⟨w, -, hw⟩ := h
  exact hw.reaches

end Cursor

namespace Scan

variable {α : Type} {chars : List Char} {start : Position}

/-- The characters read join those read before: without an error they are all of the token. -/
def Extends (chars : List Char) (c : Cursor) (t : Token) (d : Cursor) : Prop :=
  t.error = none → ∃ w, t.text.toList = chars ++ w ∧ c.Covers w d

theorem extends_make (kind : Kind) (chars : List Char) (start : Position) (c : Cursor) :
    Extends chars c (.make kind chars start) c :=
  fun _ => ⟨[], by rw [Token.make, String.toList_ofList, List.append_nil], .refl c⟩

theorem Extends.cover {w : List Char} {c d e : Cursor} {t : Token}
    (h : Extends (chars ++ w) d t e) (hw : c.Covers w d) : Extends chars c t e := by
  intro he
  obtain ⟨v, ht, hv⟩ := h he
  exact ⟨w ++ v, by rw [ht, List.append_assoc], hw.trans hv⟩

/-- From every cursor the step goes on with a token of which `chars` were read before. -/
def Continues (chars : List Char) (x : Scan Token) : Prop :=
  ∀ c, Ends x c (fun t d => Extends chars c t d) fun _ => True

theorem continues_pure {t : Token} (h : ∀ c, Extends chars c t c) : Continues chars (pure t) :=
  fun c => ends_pure (h c)

theorem run_covers (p : Char → Bool) (c : Cursor) :
    Ends (run p) c (fun w d => c.Covers w d) fun _ => True := by
  refine ((run_ends p).mono ?_).mono_error fun _ => trivial
  rintro _ _ ⟨rfl, rfl⟩
  exact Cursor.covers_of_prefix (List.takeWhile_prefix _)

/-- What is read first joins what was read before. -/
theorem Continues.after {x : Scan (List Char)} {f : List Char → Scan Token}
    (hx : ∀ c, Ends x c (fun w d => c.Covers w d) fun _ => True)
    (hf : ∀ w, Continues (chars ++ w) (f w)) : Continues chars (x >>= f) :=
  fun c => (hx c).bind fun w d hw => (hf w d).mono fun _ _ h => h.cover hw

theorem Continues.ahead {f : Option Char → Scan Token} (hf : ∀ o, Continues chars (f o)) :
    Continues chars (peek >>= f) := by
  intro c
  refine (peek_ends.mono_error fun _ => trivial).bind ?_
  rintro o c ⟨-, rfl⟩
  exact hf o c

/-! ## Numbers -/

theorem continues_malformedNumber (chars chars' : List Char) (start : Position) :
    Continues chars (malformedNumber chars' start) :=
  fun c => (ends_trivial _ c).bind fun _ _ _ => ends_pure nofun

theorem continues_completeNumber (kind : Kind) (chars : List Char) (start : Position) :
    Continues chars (completeNumber kind chars start) := by
  refine Continues.ahead fun next => ?_
  cases next with
  | none => exact continues_pure (extends_make kind chars start)
  | some x =>
    dsimp only
    split
    · exact continues_malformedNumber _ _ _
    · exact continues_pure (extends_make kind chars start)

/-- A character that was looked at is passed over. -/
theorem known_continues {x : Char} {f : Unit → Scan Token} {c : Cursor}
    (hx : c.rest.head? = some x) (hf : Continues (chars ++ [x]) (f ())) :
    Ends (skip 1 >>= f) c (fun t d => Extends chars c t d) fun _ => True := by
  obtain ⟨more, hc⟩ := List.head?_eq_some_iff.1 hx
  refine (skip_ends 1).bind ?_
  rintro _ _ rfl
  exact (hf _).mono fun _ _ h => h.cover (Cursor.covers_one hc)

theorem continues_exponent (chars : List Char) (isFloat : Bool) (start : Position) :
    Continues chars (exponent chars isFloat start) := by
  intro c
  refine (peek_ends.mono_error fun _ => trivial).bind ?_
  rintro _ c ⟨rfl, rfl⟩
  split
  · next hnext =>
    have hdigits (chars : List Char) : Continues chars (do
        let sign ← upTo 1 fun c => c == '+' || c == '-'
        let digits ← run isDigit
        if digits.isEmpty then malformedNumber (chars ++ sign) start
        else completeNumber .floatLit (chars ++ sign ++ digits) start) := by
      refine Continues.after (fun c => (upTo_covers 1 _ c).mono fun _ _ h => h.1) fun sign =>
        Continues.after (run_covers isDigit) fun digits => ?_
      split
      · exact continues_malformedNumber _ _ _
      · exact continues_completeNumber _ _ _
    rcases hnext with h | h <;> rw [h] <;> exact known_continues h (hdigits _)
  · split
    · exact continues_completeNumber _ _ _ c
    · split
      · exact continues_malformedNumber _ _ _ c
      · exact continues_completeNumber _ _ _ c

theorem continues_fraction (chars : List Char) (start : Position) :
    Continues chars (fraction chars start) :=
  Continues.after (run_covers isDigit) fun _ => continues_exponent _ _ _

theorem continues_decimal (chars : List Char) (start : Position) :
    Continues chars (decimal chars start) := by
  refine Continues.after (run_covers isDigit) fun digits c => ?_
  refine (peek_ends.mono_error fun _ => trivial).bind ?_
  rintro _ c ⟨rfl, rfl⟩
  split
  · next h => exact known_continues h (continues_fraction _ _)
  · exact continues_exponent _ _ _ c

theorem continues_hexadecimal (chars : List Char) (start : Position) :
    Continues chars (hexadecimal chars start) := by
  refine Continues.after (run_covers isHexDigit) fun digits => ?_
  split
  · exact continues_malformedNumber _ _ _
  · exact continues_completeNumber _ _ _

theorem continues_number (sign : List Char) (start : Position) :
    Continues sign (number sign start) := by
  intro c
  refine (peek_ends.mono_error fun _ => trivial).bind ?_
  rintro _ c ⟨rfl, rfl⟩
  split
  · next h =>
    refine known_continues h fun c => ?_
    refine (peek_ends.mono_error fun _ => trivial).bind ?_
    rintro _ c ⟨rfl, rfl⟩
    split
    · next hnext =>
      have hhex (x : Char) : Continues (sign ++ ['0'] ++ [x])
          (hexadecimal (sign ++ '0' :: (some x).toList) start) := by
        have h := continues_hexadecimal (sign ++ ['0', x]) start
        simpa using h
      rcases hnext with h | h <;> rw [h] <;> exact known_continues h (hhex _)
    · exact continues_decimal _ _ c
  · exact continues_decimal _ _ c

/-! ## Other tokens -/

theorem extends_single (x : Char) (start : Position) (c : Cursor) :
    Extends [x] c (single x start) c := by
  unfold single
  split <;> exact extends_make _ _ _ _

theorem continues_word (mode : Mode) (start : Position) : Continues [] (word mode start) :=
  Continues.after (run_covers isIdentChar) fun _ => continues_pure (extends_make _ _ _)

theorem continues_signed (sign : Char) (start : Position) :
    Continues [sign] (signed sign start) := by
  intro c
  refine (peek_ends.mono_error fun _ => trivial).bind ?_
  rintro _ c ⟨rfl, rfl⟩
  rcases hc : c.rest with _ | ⟨x, rest⟩
  · exact ends_pure (extends_single sign start c)
  simp only [List.head?_cons]
  split
  · exact continues_number _ _ c
  · split
    · next hx =>
      refine (peekSecond_ends.mono_error fun _ => trivial).bind ?_
      rintro _ c ⟨rfl, rfl⟩
      split
      · exact known_continues (by rw [hc, hx]; rfl) (continues_fraction _ _)
      · exact ends_pure (extends_single sign start c)
    · split
      · refine Continues.after (run_covers isIdentChar) (fun w => ?_) c
        exact continues_pure (extends_make _ ([sign] ++ w) start)
      · exact ends_pure (extends_single sign start c)

/-- A string is one, or it carries an error. -/
theorem literals_kind (outer : Char) (start : Position) (rounds : Nat) (latest : List Char) :
    Gives (literals outer start rounds latest) fun t =>
      t.kind = .stringLit ∨ ∃ e, t.error = some e := by
  induction rounds generalizing latest with
  | zero => exact gives_pure (.inl rfl)
  | succ rounds ih =>
    refine Gives.after fun _ => Gives.after fun _ => Gives.after fun _ => Gives.after fun b => ?_
    cases b with
    | unterminated latest => exact gives_pure (.inr ⟨_, rfl⟩)
    | badEscape latest p => exact gives_pure (.inr ⟨_, rfl⟩)
    | closed latest =>
      refine Gives.after fun _ => Gives.after fun next => ?_
      cases next with
      | none => exact gives_pure (.inl rfl)
      | some x =>
        dsimp only
        split
        · exact ih _
        · exact gives_pure (.inl rfl)

/-- A token without an error that is no string is what stands between its start and its end. -/
theorem token_verbatim (mode : Mode) (c : Cursor) : Ends (token mode) c
    (fun t d => t.kind ≠ .stringLit → Extends [] c t d) fun _ => True := by
  refine here_ends.bind ?_
  rintro _ c ⟨rfl, rfl⟩
  refine (peek_ends.mono_error fun _ => trivial).bind ?_
  rintro _ c ⟨rfl, rfl⟩
  rcases hc : c.rest with _ | ⟨x, rest⟩
  · exact ends_pure fun _ => extends_make _ _ _ _
  have hx : c.rest.head? = some x := by rw [hc]; rfl
  simp only [List.head?_cons]
  split
  · exact (continues_word _ _ c).mono fun _ _ h _ => h
  · split
    · exact (continues_number _ _ c).mono fun _ _ h _ => h
    · split
      · refine (literals_kind _ _ _ _ c).mono fun t d h hk he => ?_
        rcases h with h | ⟨e, h⟩
        · exact absurd h hk
        · exact absurd (h.symm.trans he) (Option.some_ne_none e)
      · refine (known_continues hx ?_).mono fun _ _ h _ => h
        split
        · exact continues_signed x _
        · split
          · next hdot =>
            obtain rfl : x = '.' := by simpa using (Bool.and_eq_true_iff.1 hdot).2
            refine Continues.ahead fun next => ?_
            split
            · exact continues_fraction _ _
            · exact continues_pure (extends_single _ _)
          · exact continues_pure (extends_single x _)

/-! ## Comments -/

theorem dropReturns_append (w : List Char) :
    ∃ returns, w = dropReturns w ++ returns ∧ returns.all (· == '\r') = true := by
  refine ⟨(w.reverse.takeWhile (· == '\r')).reverse, ?_, ?_⟩
  · rw [dropReturns, ← List.reverse_append, List.takeWhile_append_dropWhile, List.reverse_reverse]
  · rw [List.all_reverse]
    exact List.all_takeWhile

/-- What is trimmed from a line that starts with a slash are carriage returns, and something is left. -/
theorem line_kept {chars more : List Char} (hr : chars = '/' :: more) :
    ∃ returns, chars.takeWhile (· != '\n') =
        dropReturns (chars.takeWhile (· != '\n')) ++ returns ∧
      returns.all (· == '\r') = true ∧ dropReturns (chars.takeWhile (· != '\n')) ≠ [] := by
  obtain ⟨returns, hsplit, hreturns⟩ := dropReturns_append (chars.takeWhile (· != '\n'))
  refine ⟨returns, hsplit, hreturns, fun hnil => ?_⟩
  rw [hnil, List.nil_append] at hsplit
  have hslash : '/' ∈ returns := by rw [← hsplit, hr]; simp
  exact absurd (List.all_eq_true.1 hreturns _ hslash) (by decide)

/-- A comment from `c` on is what stands there; behind it and in front of `d` are blanks only. -/
def Remarks (c : Cursor) (t : Token) (d : Cursor) : Prop :=
  t.error = none → t.kind = .comment ∧ t.position = c.position ∧ t.text.toList ≠ [] ∧
    ∃ e, c.Covers t.text.toList e ∧ e.Spaces d

theorem remarks_commentOf {c : Cursor} {n : Nat} {returns : List Char}
    {trim : List Char → List Char} (hn : n ≤ c.rest.length)
    (hsplit : c.rest.take n = trim (c.rest.take n) ++ returns)
    (hkept : trim (c.rest.take n) ≠ []) (hreturns : returns.all (· == '\r') = true) :
    Ends (commentOf n trim) c (fun t d => Remarks c t d) fun _ => True := by
  have hall : returns.all isBlank = true := by
    refine List.all_eq_true.2 fun x hx => ?_
    obtain rfl : x = '\r' := by simpa using List.all_eq_true.1 hreturns x hx
    decide
  have hcover := Cursor.covers_of_prefix (List.take_prefix n c.rest)
  rw [List.length_take_of_le hn, hsplit] at hcover
  obtain ⟨e, hkeep, hrest⟩ := hcover.split
  refine Ends.bind (P := fun a d => a = c ∧ d = c) ⟨rfl, rfl⟩ ?_
  rintro _ c ⟨rfl, rfl⟩
  refine (skip_ends _).bind ?_
  rintro _ _ rfl
  refine ends_pure fun _ => ?_
  simp only [String.toList_ofList, true_and]
  exact ⟨hkept, e, hkeep, returns, hall, hrest⟩

/-- A comment without an error is what stands in the text, carriage returns at its end left out. -/
theorem comment_verbatim {c : Cursor} (hc : OpensComment c.rest) :
    Ends comment c (fun t d => Remarks c t d) fun _ => True := by
  refine comment_cases hc (fun _ => trivial) ?line ?block fun he => absurd he (Option.some_ne_none _)
  case line =>
    intro more hr
    obtain ⟨returns, hsplit, hreturns, hne⟩ := line_kept hr
    have hprefix := List.takeWhile_prefix (l := c.rest) (· != '\n')
    rw [List.prefix_iff_eq_take.1 hprefix] at hsplit hne
    exact remarks_commentOf hprefix.length_le hsplit hne hreturns
  case block =>
    intro more n hr _ hlen
    refine remarks_commentOf hlen (List.append_nil _).symm ?_ rfl
    rw [id, hr]
    simp

end Scan

end ProtoIdl
