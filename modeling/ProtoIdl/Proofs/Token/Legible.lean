import ProtoIdl.Proofs.Token.Stream
/-!
# What the text of a token can be

A number has a first character, so its sign can be looked at, and a sign that stands by itself is a
delimiter. `Token.Legible` states both of one token; it holds of every token that a text hands out,
under every mode (`TokenStream.legible_calls`). The empty text is left to the end of a text and to
octets that are not UTF-8. A delimiter is one character (`Cursor.Finds.delimiter`).
-/
namespace ProtoIdl

/-- An integer is not empty, and of the characters that are no tokens none is a sign. -/
structure Token.Legible (t : Token) : Prop where
  integer : t.kind = .intLit → t.text ≠ ""
  sign : t.kind = .illegal → t.error = none → t.text ≠ "-" ∧ t.text ≠ "+"

/-- What starts with a digit is legible and no delimiter. -/
structure Token.Numeral (t : Token) : Prop extends Legible t where
  symbol : ∀ k, t.kind ≠ .delimiter k

namespace Token

variable {chars : List Char} {p : Position}

/-- Nothing is asked of other kinds. -/
theorem legible_of_kind {t : Token} (hi : t.kind ≠ .intLit) (hk : t.kind ≠ .illegal) : t.Legible :=
  ⟨fun h => absurd h hi, fun h => absurd h hk⟩

theorem legible_malformed (chars : List Char) (fault : LexicalFault) (p : Position) :
    (malformed chars fault p).Legible :=
  ⟨nofun, nofun⟩

theorem legible_ofError (e : LexicalError) : (ofError e).Legible := ⟨nofun, nofun⟩

theorem numeral_malformed (chars : List Char) (fault : LexicalFault) (p : Position) :
    (malformed chars fault p).Numeral :=
  ⟨legible_malformed _ _ _, nofun⟩

theorem numeral_floatLit (chars : List Char) (p : Position) : (make .floatLit chars p).Numeral :=
  ⟨legible_of_kind nofun nofun, nofun⟩

theorem numeral_intLit (h : chars ≠ []) : (make .intLit chars p).Numeral where
  integer _ := by
    rw [make, Ne, String.ofList_eq_empty_iff]
    exact h
  sign := nofun
  symbol := nofun

end Token

namespace Scan

/-- Wherever the step is begun, the property holds of the token that it reads. -/
def Spells (P : Token → Prop) (x : Scan Token) : Prop :=
  ∀ c, Ends x c (fun t _ => P t) fun _ => True

variable {P : Token → Prop}

/-! ## Rules -/

theorem ends_trivial {α : Type} (x : Scan α) (c : Cursor) :
    Ends x c (fun _ _ => True) fun _ => True := by
  unfold Ends
  split <;> trivial

theorem ends_self {α : Type} (x : Scan α) (c : Cursor) :
    Ends x c (fun a d => x c = .ok (a, d)) fun _ => True := by
  unfold Ends
  split
  · next h => exact h
  · trivial

theorem Spells.bind {α : Type} {x : Scan α} {f : α → Scan Token} (hf : ∀ a, Spells P (f a)) :
    Spells P (x >>= f) :=
  fun c => (ends_trivial x c).bind fun a d _ => hf a d

theorem spells_pure {t : Token} (h : P t) : Spells P (pure t) := fun _ => ends_pure h

theorem Spells.legible {x : Scan Token} (h : Spells Token.Numeral x) : Spells Token.Legible x :=
  fun c => (h c).mono fun _ _ ht => ht.toLegible

/-! ## Numbers -/

section
variable {chars : List Char} {start : Position}

theorem spells_malformedNumber : Spells Token.Numeral (malformedNumber chars start) :=
  Spells.bind fun _ => spells_pure (Token.numeral_malformed _ _ _)

theorem spells_completeNumber {kind : Kind} (h : (Token.make kind chars start).Numeral) :
    Spells Token.Numeral (completeNumber kind chars start) := by
  refine Spells.bind fun next => ?_
  cases next with
  | none => exact spells_pure h
  | some x =>
    dsimp only
    split
    · exact spells_malformedNumber
    · exact spells_pure h

theorem spells_exponent (isFloat : Bool) (h : chars ≠ []) :
    Spells Token.Numeral (exponent chars isFloat start) := by
  refine Spells.bind fun next => ?_
  split
  · refine Spells.bind fun _ => Spells.bind fun sign => Spells.bind fun digits => ?_
    split
    · exact spells_malformedNumber
    · exact spells_completeNumber (Token.numeral_floatLit _ _)
  · split
    · exact spells_completeNumber (Token.numeral_floatLit _ _)
    · split
      · exact spells_malformedNumber
      · exact spells_completeNumber (Token.numeral_intLit h)

theorem spells_fraction (h : chars ≠ []) : Spells Token.Numeral (fraction chars start) :=
  Spells.bind fun _ => spells_exponent true (List.append_ne_nil_of_left_ne_nil h _)

theorem spells_decimal_tail (h : chars ≠ []) : Spells Token.Numeral (do
    if (← peek) = some '.' then
      skip 1
      fraction (chars ++ ['.']) start
    else exponent chars false start) := by
  refine Spells.bind fun next => ?_
  split
  · exact Spells.bind fun _ => spells_fraction (List.append_ne_nil_of_left_ne_nil h _)
  · exact spells_exponent false h

theorem spells_decimal (h : chars ≠ []) : Spells Token.Numeral (decimal chars start) :=
  Spells.bind fun _ => spells_decimal_tail (List.append_ne_nil_of_left_ne_nil h _)

theorem spells_hexadecimal : Spells Token.Numeral (hexadecimal chars start) := by
  refine Spells.bind fun digits => ?_
  split
  · exact spells_malformedNumber
  · next h =>
    refine spells_completeNumber (Token.numeral_intLit (List.append_ne_nil_of_right_ne_nil _ ?_))
    simpa using h

/-- A number has a digit, so it is not empty. -/
theorem number_spells {c : Cursor} {x : Char} {rest : List Char} (hc : c.rest = x :: rest)
    (hx : Text.isDigit x = true) (sign : List Char) :
    Ends (number sign start) c (fun t _ => t.Numeral) fun _ => True := by
  refine (peek_ends.mono_error fun _ => trivial).bind ?_
  rintro _ c ⟨rfl, rfl⟩
  split
  · refine Spells.bind (fun _ => Spells.bind fun next => ?_) c
    split
    · exact Spells.bind fun _ => spells_hexadecimal
    · exact spells_decimal (List.append_ne_nil_of_right_ne_nil _ (List.cons_ne_nil _ _))
  · refine ((run_ends Text.isDigit).mono_error fun _ => trivial).bind ?_
    rintro _ d ⟨rfl, -⟩
    have hdigits : c.rest.takeWhile Text.isDigit ≠ [] :=
      List.ne_nil_of_length_pos (length_takeWhile_pos hc hx)
    exact spells_decimal_tail (List.append_ne_nil_of_right_ne_nil _ hdigits) d

end

/-! ## Other tokens -/

/-- Characters that are not one sign make no sign. -/
theorem text_ne_sign {kind : Kind} {chars : List Char} {p : Position} (hm : chars ≠ ['-'])
    (hp : chars ≠ ['+']) : (Token.make kind chars p).text ≠ "-" ∧
      (Token.make kind chars p).text ≠ "+" := by
  constructor
  all_goals
    intro h
    have h := congrArg String.toList h
    rw [Token.make, String.toList_ofList] at h
    simp_all

theorem legible_single (x : Char) (start : Position) : (single x start).Legible := by
  unfold single
  split
  · exact Token.legible_of_kind nofun nofun
  · next hx =>
    refine ⟨nofun, fun _ _ => text_ne_sign ?_ ?_⟩
    all_goals
      rintro ⟨⟩
      cases hx

/-- What a sign makes illegal is the word behind it. -/
theorem spells_signed (sign : Char) (start : Position) : Spells Token.Legible (signed sign start) := by
  intro c
  refine (peek_ends.mono_error fun _ => trivial).bind ?_
  rintro _ c ⟨rfl, rfl⟩
  rcases hc : c.rest with _ | ⟨x, rest⟩
  · exact ends_pure (legible_single sign start)
  simp only [List.head?_cons]
  split
  · next hx => exact (number_spells hc hx _).mono fun _ _ h => h.toLegible
  · split
    · refine Spells.bind (fun next => ?_) c
      split
      · exact Spells.bind fun _ => (spells_fraction (List.cons_ne_nil _ _)).legible
      · exact spells_pure (legible_single sign start)
    · split
      · next hx =>
        refine ((run_ends Text.isIdentChar).mono_error fun _ => trivial).bind ?_
        rintro _ d ⟨rfl, -⟩
        have hne : c.rest.takeWhile Text.isIdentChar ≠ [] := List.ne_nil_of_length_pos
          (length_takeWhile_pos hc (Text.isIdentChar_of_isIdentStart hx))
        refine ends_pure ⟨?_, fun _ _ => text_ne_sign ?_ ?_⟩
        · dsimp only [Token.make]
          split <;> nofun
        all_goals exact fun h => hne (List.cons.inj h).2
      · exact ends_pure (legible_single sign start)

theorem spells_literals (outer : Char) (start : Position) (rounds : Nat) (latest : List Char) :
    Spells Token.Legible (literals outer start rounds latest) := by
  have hq latest : (quotedToken outer latest start).Legible :=
    Token.legible_of_kind nofun nofun
  induction rounds generalizing latest with
  | zero => exact spells_pure (hq _)
  | succ rounds ih =>
    refine Spells.bind fun opening => Spells.bind fun first => Spells.bind fun _ =>
      Spells.bind fun b => ?_
    cases b with
    | unterminated latest => exact spells_pure (Token.legible_malformed _ _ _)
    | badEscape latest p => exact spells_pure (Token.legible_malformed _ _ _)
    | closed latest =>
      refine Spells.bind fun _ => Spells.bind fun next => ?_
      cases next with
      | none => exact spells_pure (hq _)
      | some x =>
        dsimp only
        split
        · exact ih _
        · exact spells_pure (hq _)

theorem wordKind_legible (mode : Mode) (w : String) :
    wordKind mode w ≠ .intLit ∧ wordKind mode w ≠ .illegal := by
  unfold wordKind
  repeat' split
  all_goals exact ⟨nofun, nofun⟩

theorem spells_token (mode : Mode) : Spells Token.Legible (token mode) := by
  intro c
  refine here_ends.bind ?_
  rintro start c ⟨-, rfl⟩
  refine (peek_ends.mono_error fun _ => trivial).bind ?_
  rintro _ c ⟨rfl, rfl⟩
  rcases hc : c.rest with _ | ⟨x, rest⟩
  · exact ends_pure (Token.legible_of_kind nofun nofun)
  simp only [List.head?_cons]
  split
  · refine Spells.bind (fun chars => spells_pure ?_) c
    exact Token.legible_of_kind (wordKind_legible _ _).1 (wordKind_legible _ _).2
  · split
    · next hx => exact (number_spells hc hx []).mono fun _ _ h => h.toLegible
    · split
      · exact Spells.bind (fun _ => spells_literals _ _ _ _) c
      · refine Spells.bind (fun _ => ?_) c
        split
        · exact spells_signed x start
        · split
          · refine Spells.bind fun next => ?_
            split
            · exact (spells_fraction (List.cons_ne_nil _ _)).legible
            · exact spells_pure (legible_single x start)
          · exact spells_pure (legible_single x start)

theorem spells_comment : Spells Token.Legible comment := by
  have hof n trim : Spells Token.Legible (commentOf n trim) :=
    Spells.bind fun _ => Spells.bind fun _ => spells_pure (Token.legible_of_kind nofun nofun)
  refine Spells.bind fun second => ?_
  split
  · exact Spells.bind fun _ => Spells.bind fun _ => Spells.bind fun _ => hof _ _
  · refine Spells.bind fun c => ?_
    split
    · exact hof _ _
    · exact Spells.bind fun _ => Spells.bind fun _ =>
        spells_pure (Token.legible_malformed _ _ _)

end Scan

/-! ## Delimiters -/

theorem Scan.wordKind_ne_delimiter (mode : Mode) (w : String) (k : Delimiter) :
    wordKind mode w ≠ .delimiter k := by
  unfold wordKind
  repeat' split
  all_goals nofun

/-- A delimiter is one character. -/
theorem Scan.token_delimiter {c d : Cursor} {t : Token} {k : Delimiter}
    (h : token .plain c = .ok (t, d)) (hk : t.kind = .delimiter k) :
    t.position = c.position ∧ (∃ x more, c.rest = x :: more ∧ Delimiter.ofChar? x = some k) ∧
      d = c.advance 1 := by
  rcases hc : c.rest with _ | ⟨x, rest⟩
  · obtain ⟨rfl, -⟩ := (token_ends_of_nil .plain hc).ok h
    cases hk
  by_cases hx : Text.isIdentStart x = true
  · rw [token_of_identStart .plain hc hx] at h
    have hword := (Spells.bind (P := fun t => t.kind ≠ .delimiter k) (fun chars =>
      spells_pure (wordKind_ne_delimiter .plain (String.ofList chars) k)) c).ok h
    exact absurd hk hword
  rw [Bool.not_eq_true] at hx
  by_cases hd : Text.isDigit x = true
  · rw [token_of_digit .plain hc hx hd] at h
    exact absurd hk (((number_spells hc hd []).ok h).symbol k)
  · rw [Bool.not_eq_true] at hd
    rw [token_of_single .plain hc hx hd (Bool.and_false _) rfl] at h
    obtain ⟨rfl, rfl⟩ := Prod.mk.inj (Except.ok.inj h)
    unfold single at hk ⊢
    split
    · next k' hk' =>
      rw [hk'] at hk
      exact ⟨rfl, ⟨x, rest, rfl, Kind.delimiter.inj hk ▸ hk'⟩, rfl⟩
    · next hk' =>
      rw [hk'] at hk
      cases hk

/-- Behind a delimiter reading stands one character further. -/
theorem Cursor.Finds.delimiter {c d e : Cursor} {t : Token} {ts : List Token} {k : Delimiter}
    (h : c.Finds .plain t ts d e) (hk : t.kind = .delimiter k) :
    t.position = d.position ∧ (∃ x more, d.rest = x :: more ∧ Delimiter.ofChar? x = some k) ∧
      e = d.advance 1 := by
  cases h with
  | token hl ht => exact Scan.token_delimiter ht hk
  | unclosed hl =>
    obtain ⟨-, rfl, -⟩ := hl.unclosed_eq
    cases hk

/-! ## The tokens of a text -/

section
variable {P : Token → Prop}

/-- A step taken reads a token with the property, or the source fails. -/
theorem Source.take_spells {x : Scan Token} (hx : Scan.Spells P x) (s : Source) (t : Token)
    (s' : Source) (h : s.take x = (.ok t, s')) : P t := by
  rcases Source.take_cases (hx s.current) with ⟨u, d, hu, ht⟩ | ⟨e, he, -⟩
  · rw [hu] at h
    obtain ⟨hut, -⟩ := Prod.mk.inj h
    exact Except.ok.inj hut ▸ ht
  · rw [he] at h
    cases (Prod.mk.inj h).1

theorem Source.lead_spells (hc : Scan.Spells P Scan.comment) (he : ∀ e, P (.ofError e))
    (mode : Mode) (rounds : Nat) (passed : List Token) (s : Source) (t : Token)
    (h : (s.lead mode rounds passed).1 = .token t) : P t := by
  induction rounds generalizing s passed with
  | zero => cases h
  | succ rounds ih =>
    rw [Source.lead] at h
    split at h
    · cases h
      exact he _
    · cases h
    · split at h
      · cases h
        exact he _
      · next ht =>
        split at h
        · cases h
          exact Source.take_spells hc _ _ _ ht
        · exact ih _ _ h

/-- A property of comments, of what the mode reads and of errors is one of every token. -/
theorem TokenStream.scan_spells {mode : Mode} (hc : Scan.Spells P Scan.comment)
    (ht : Scan.Spells P (Scan.token mode)) (he : ∀ e, P (.ofError e)) (s : TokenStream) :
    P (s.scan mode).1 := by
  have hl := Source.lead_spells hc he mode s.rounds [] s.source
  unfold TokenStream.scan
  generalize s.source.lead mode s.rounds [] = r at hl ⊢
  obtain ⟨lead, passed, source⟩ := r
  cases lead with
  | token t => exact hl t rfl
  | clear =>
    dsimp only
    split
    · next h => exact Source.take_spells ht _ _ _ h
    · exact he _

end

namespace TokenStream

theorem legible_scan (mode : Mode) (s : TokenStream) : (s.scan mode).1.Legible :=
  scan_spells Scan.spells_comment (Scan.spells_token mode) Token.legible_ofError s

/-- Every token handed out by a run of calls is legible. -/
theorem legible_calls (calls : List Call) (s : TokenStream) :
    ∀ t ∈ (s.calls calls).1, t.Legible := by
  induction calls generalizing s with
  | nil => simp [TokenStream.calls]
  | cons call rest ih =>
    cases call with
    | scan mode =>
      simp only [TokenStream.calls]
      exact List.forall_mem_cons.2 ⟨legible_scan mode s, ih _⟩
    | unscan =>
      unfold TokenStream.calls
      split <;> exact ih _

end TokenStream

end ProtoIdl
