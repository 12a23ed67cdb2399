import ProtoIdl.Proofs.Token.Step
import ProtoIdl.Token.Stream
/-!
# Where tokens stand

A token that is read from a cursor stands at that cursor, unless it is malformed: then it stands
where its error is reported, which is a place further down (`Token.Lexed`). `Scan.Forward c x P`
carries this through the scanning steps: from every place behind `c` the step `x` only moves
forward, and its answer satisfies `P`. `Scan.Strides` says besides that a character is read.

Main statements: `Scan.token_ends_of_cons`, `Scan.gap_ends` and `Scan.comment_ends`.
-/
namespace ProtoIdl

/-- The place of some cursor reached from `c`. -/
def Cursor.Sees (c : Cursor) (p : Position) : Prop := ∃ d, c.Reaches d ∧ d.position = p

theorem Cursor.Sees.of_reaches {c d : Cursor} {p : Position} (h : c.Reaches d) :
    d.Sees p → c.Sees p
  | ⟨e, he, hp⟩ => ⟨e, h.trans he, hp⟩

theorem Cursor.sees_self (c : Cursor) : c.Sees c.position := ⟨c, .refl c, rfl⟩

/-- A token with characters, read from `c` on. -/
structure Token.Lexed (c : Cursor) (t : Token) : Prop where
  place : t.error = none ∧ t.position = c.position ∨
    t.kind = .illegal ∧ c.Sees t.position ∧ ∃ fault, t.error = some ⟨fault, t.position⟩
  last_eq : t.last = none
  ne_eof : t.kind ≠ .eof
  ne_comment : t.kind ≠ .comment

namespace Token

variable {c : Cursor} {kind : Kind} {chars : List Char}

theorem lexed_make (he : kind ≠ .eof) (hc : kind ≠ .comment) :
    (make kind chars c.position).Lexed c :=
  ⟨.inl ⟨rfl, rfl⟩, rfl, he, hc⟩

theorem lexed_malformed {fault : LexicalFault} {p : Position} (h : c.Sees p) :
    (malformed chars fault p).Lexed c :=
  ⟨.inr ⟨rfl, h, fault, rfl⟩, rfl, nofun, nofun⟩

theorem Lexed.sees {t : Token} (h : t.Lexed c) : c.Sees t.position := by
  rcases h.place with ⟨-, hp⟩ | ⟨-, hs, -⟩
  · rw [hp]
    exact c.sees_self
  · exact hs

end Token

namespace Scan

variable {α β : Type}

/-- From every place behind `c` the step moves forward, and its answer satisfies `P`. -/
def Forward (c : Cursor) (x : Scan α) (P : α → Prop) : Prop :=
  ∀ d, c.Reaches d → Ends x d (fun a e => d.Reaches e ∧ P a) d.Faulty

/-- From every place behind `c` the step reads a character at least. -/
def Strides (c : Cursor) (x : Scan α) (P : α → Prop) : Prop :=
  ∀ d, c.Reaches d → Ends x d (fun a e => (d.advance 1).Reaches e ∧ P a) d.Faulty

section
variable {c : Cursor} {x : Scan α} {P : α → Prop}

theorem Strides.forward (h : Strides c x P) : Forward c x P :=
  fun d hd => (h d hd).mono fun _ _ ⟨he, ha⟩ => ⟨(d.reaches_advance 1).trans he, ha⟩

theorem Forward.bind {f : α → Scan β} {Q : β → Prop} (hx : Forward c x P)
    (hf : ∀ a, P a → Forward c (f a) Q) : Forward c (x >>= f) Q := by
  intro d hd
  refine (hx d hd).bind ?_
  rintro a e ⟨he, ha⟩
  refine ((hf a ha e (hd.trans he)).mono_error (Cursor.Faulty.of_reaches he)).mono ?_
  rintro b g ⟨hg, hb⟩
  exact ⟨he.trans hg, hb⟩

theorem Forward.bind_strides {f : α → Scan β} {Q : β → Prop} (hx : Forward c x P)
    (hf : ∀ a, P a → Strides c (f a) Q) : Strides c (x >>= f) Q := by
  intro d hd
  refine (hx d hd).bind ?_
  rintro a _ ⟨⟨n, rfl⟩, ha⟩
  have hn : c.Reaches (d.advance n) := hd.trans (d.reaches_advance n)
  refine ((hf a ha _ hn).mono_error (Cursor.Faulty.of_reaches (d.reaches_advance n))).mono ?_
  rintro b g ⟨hg, hb⟩
  refine ⟨Cursor.Reaches.trans ⟨n, ?_⟩ hg, hb⟩
  rw [← Cursor.advance_add, ← Cursor.advance_add, Nat.add_comm]

/-- What follows a step over some characters cannot go back behind them. -/
theorem Forward.after (h : Forward c x P) {n : Nat} (hn : 0 < n) {d : Cursor} (hd : c.Reaches d) :
    Ends x (d.advance n) (fun a e => (d.advance 1).Reaches e ∧ P a) d.Faulty := by
  have hdn := d.reaches_advance n
  refine ((h _ (hd.trans hdn)).mono_error (Cursor.Faulty.of_reaches hdn)).mono ?_
  rintro a e ⟨he, ha⟩
  refine ⟨Cursor.Reaches.trans ⟨n - 1, ?_⟩ he, ha⟩
  rw [← Cursor.advance_add]
  congr 1
  omega

theorem strides_skip_bind {f : Unit → Scan β} {Q : β → Prop} (hf : Forward c (f ()) Q) :
    Strides c (skip 1 >>= f) Q := by
  intro d hd
  refine (skip_ends 1).bind ?_
  rintro _ _ rfl
  exact hf.after Nat.one_pos hd

theorem forward_pure {a : α} (h : P a) : Forward c (pure a) P :=
  fun d _ => ends_pure ⟨.refl d, h⟩

theorem forward_here : Forward c here c.Sees :=
  fun d hd => here_ends.mono fun _ _ ⟨ha, he⟩ => ⟨he ▸ .refl d, ha ▸ ⟨d, hd, rfl⟩⟩

theorem forward_get : Forward c get c.Reaches := fun d hd => ⟨.refl d, hd⟩

theorem forward_peek : Forward c peek fun _ => True :=
  fun d _ => peek_ends.mono fun _ _ ⟨_, he⟩ => ⟨he ▸ .refl d, trivial⟩

theorem forward_peekSecond : Forward c peekSecond fun _ => True :=
  fun d _ => peekSecond_ends.mono fun _ _ ⟨_, he⟩ => ⟨he ▸ .refl d, trivial⟩

theorem forward_skip (n : Nat) : Forward c (skip n) fun _ => True :=
  fun d _ => (skip_ends n).mono fun _ _ he => ⟨he ▸ d.reaches_advance n, trivial⟩

theorem forward_run (p : Char → Bool) : Forward c (run p) fun _ => True :=
  fun d _ => (run_ends p).mono fun _ _ ⟨_, he⟩ => ⟨he ▸ d.reaches_advance _, trivial⟩

theorem forward_upTo (n : Nat) (p : Char → Bool) : Forward c (upTo n p) fun _ => True :=
  fun d _ => (upTo_ends p n).mono fun _ _ ⟨he, _⟩ => ⟨he ▸ d.reaches_advance _, trivial⟩

end

/-! ## Numbers -/

section
variable {c : Cursor} (chars : List Char)

theorem forward_malformedNumber :
    Forward c (malformedNumber chars c.position) (Token.Lexed c) :=
  (forward_run _).bind fun _ _ => forward_pure (Token.lexed_malformed c.sees_self)

theorem forward_completeNumber {kind : Kind} (he : kind ≠ .eof) (hc : kind ≠ .comment) :
    Forward c (completeNumber kind chars c.position) (Token.Lexed c) := by
  refine forward_peek.bind fun next _ => ?_
  cases next with
  | none => exact forward_pure (Token.lexed_make he hc)
  | some x =>
    dsimp only
    split
    · exact forward_malformedNumber chars
    · exact forward_pure (Token.lexed_make he hc)

theorem forward_exponent (isFloat : Bool) :
    Forward c (exponent chars isFloat c.position) (Token.Lexed c) := by
  refine forward_peek.bind fun next _ => ?_
  by_cases hn : next = some 'e' ∨ next = some 'E'
  · rw [if_pos hn]
    refine (forward_skip 1).bind fun _ _ => (forward_upTo 1 _).bind fun sign _ =>
      (forward_run _).bind fun digits _ => ?_
    split
    · exact forward_malformedNumber _
    · exact forward_completeNumber _ nofun nofun
  · rw [if_neg hn]
    split
    · exact forward_completeNumber _ nofun nofun
    · split
      · exact forward_malformedNumber _
      · exact forward_completeNumber _ nofun nofun

theorem forward_fraction : Forward c (fraction chars c.position) (Token.Lexed c) :=
  (forward_run _).bind fun _ _ => forward_exponent _ true

/-- What follows the first digits of a decimal number. -/
theorem forward_decimal : Forward c (decimal chars c.position) (Token.Lexed c) := by
  refine (forward_run _).bind fun digits _ => forward_peek.bind fun next _ => ?_
  split
  · exact (forward_skip 1).bind fun _ _ => forward_fraction _
  · exact forward_exponent _ false

theorem forward_hexadecimal : Forward c (hexadecimal chars c.position) (Token.Lexed c) := by
  refine (forward_run _).bind fun digits _ => ?_
  split
  · exact forward_malformedNumber _
  · exact forward_completeNumber _ nofun nofun

theorem forward_number : Forward c (number chars c.position) (Token.Lexed c) := by
  refine forward_peek.bind fun first _ => ?_
  split
  · refine (forward_skip 1).bind fun _ _ => forward_peek.bind fun next _ => ?_
    split
    · exact (forward_skip 1).bind fun _ _ => forward_hexadecimal _
    · exact forward_decimal _
  · exact forward_decimal _

end

/-! ## Words and signs -/

section
variable {c : Cursor}

theorem wordKind_ne (mode : Mode) (w : String) :
    wordKind mode w ≠ .eof ∧ wordKind mode w ≠ .comment := by
  unfold wordKind
  repeat' split
  all_goals exact ⟨nofun, nofun⟩

theorem lexed_single (x : Char) : (single x c.position).Lexed c := by
  unfold single
  split <;> exact Token.lexed_make nofun nofun

theorem forward_signed (sign : Char) : Forward c (signed sign c.position) (Token.Lexed c) := by
  refine forward_peek.bind fun next _ => ?_
  cases next with
  | none => exact forward_pure (lexed_single sign)
  | some x =>
    dsimp only
    split
    · exact forward_number _
    · split
      · refine forward_peekSecond.bind fun second _ => ?_
        split
        · exact (forward_skip 1).bind fun _ _ => forward_fraction _
        · exact forward_pure (lexed_single sign)
      · split
        · refine (forward_run _).bind fun chars _ => forward_pure ?_
          split <;> exact Token.lexed_make nofun nofun
        · exact forward_pure (lexed_single sign)

end

/-! ## Strings -/

section
variable {c : Cursor}

theorem forward_escape : Forward c escape fun _ => True := by
  refine forward_peek.bind fun next _ => ?_
  cases next with
  | none => exact forward_pure trivial
  | some x =>
    refine (forward_skip 1).bind fun _ _ => ?_
    split
    · exact forward_pure trivial
    · split
      · exact (forward_upTo _ _).bind fun _ _ => forward_pure trivial
      · split
        · exact (forward_upTo _ _).bind fun _ _ => forward_pure trivial
        · split
          · exact (forward_upTo _ _).bind fun _ _ => forward_pure trivial
          · exact forward_pure trivial

/-- A malformed escape is reported at a place of the body. -/
theorem forward_body (outer close : Char) (rounds : Nat) (latest : List Char) :
    Forward c (body outer close rounds latest) fun b =>
      ∀ latest p, b = .badEscape latest p → c.Sees p := by
  induction rounds generalizing latest with
  | zero => exact forward_pure nofun
  | succ rounds ih =>
    refine forward_peek.bind fun next _ => ?_
    cases next with
    | none => exact forward_pure nofun
    | some x =>
      refine forward_get.bind fun backslash hb => (forward_skip 1).bind fun _ _ => ?_
      split
      · exact forward_pure nofun
      · split
        · exact forward_pure nofun
        · split
          · refine forward_escape.bind fun e _ => ?_
            cases e with
            | valid escaped => exact ih _
            | invalid read =>
              refine forward_pure ?_
              rintro _ _ ⟨⟩
              exact ⟨_, hb.trans (backslash.reaches_advance read), rfl⟩
          · split
            · exact ih _
            · exact ih _

/-- A literal takes its quote, and what follows it moves on. -/
theorem strides_literals (outer : Char) {rounds : Nat}
    (h : ∀ latest, Forward c (literals outer c.position rounds latest) (Token.Lexed c))
    (latest : List Char) :
    Strides c (literals outer c.position (rounds + 1) latest) (Token.Lexed c) := by
  have hq latest : (quotedToken outer latest c.position).Lexed c := Token.lexed_make nofun nofun
  refine forward_here.bind_strides fun opening ho => forward_peek.bind_strides fun first _ =>
    strides_skip_bind ((forward_body _ _ _ _).bind fun b hb => ?_)
  cases b with
  | unterminated latest => exact forward_pure (Token.lexed_malformed ho)
  | badEscape latest p => exact forward_pure (Token.lexed_malformed (hb _ _ rfl))
  | closed latest =>
    refine (forward_run _).bind fun _ _ => forward_peek.bind fun next _ => ?_
    cases next with
    | none => exact forward_pure (hq _)
    | some x =>
      dsimp only
      split
      · exact h _
      · exact forward_pure (hq _)

theorem forward_literals (outer : Char) (rounds : Nat) (latest : List Char) :
    Forward c (literals outer c.position rounds latest) (Token.Lexed c) := by
  induction rounds generalizing latest with
  | zero => exact forward_pure (Token.lexed_make nofun nofun)
  | succ rounds ih => exact (strides_literals outer ih latest).forward

end

/-! ## The token at a cursor -/

section
variable {c : Cursor} {x : Char} {rest : List Char}

theorem length_takeWhile_pos {p : Char → Bool} (hc : c.rest = x :: rest) (hx : p x = true) :
    0 < (c.rest.takeWhile p).length := by
  simp [hc, hx]

theorem decimal_ends (chars : List Char) (hc : c.rest = x :: rest) (hx : Text.isDigit x = true) :
    Ends (decimal chars c.position) c (fun t d => (c.advance 1).Reaches d ∧ t.Lexed c)
      c.Faulty := by
  refine (run_ends Text.isDigit).bind ?_
  rintro _ _ ⟨rfl, rfl⟩
  refine Forward.after (forward_peek.bind fun next _ => ?_) (length_takeWhile_pos hc hx) (.refl c)
  split
  · exact (forward_skip 1).bind fun _ _ => forward_fraction _
  · exact forward_exponent _ false

theorem number_ends (hc : c.rest = x :: rest) (hx : Text.isDigit x = true) :
    Ends (number [] c.position) c (fun t d => (c.advance 1).Reaches d ∧ t.Lexed c) c.Faulty := by
  refine peek_ends.bind ?_
  rintro _ c ⟨rfl, rfl⟩
  split
  · refine (skip_ends 1).bind ?_
    rintro _ _ rfl
    refine Forward.after (forward_peek.bind fun next _ => ?_) Nat.one_pos (.refl c)
    split
    · exact (forward_skip 1).bind fun _ _ => forward_hexadecimal _
    · exact forward_decimal _
  · exact decimal_ends [] hc hx

theorem string_ends (hc : c.rest = x :: rest) :
    Ends (string x c.position) c (fun t d => (c.advance 1).Reaches d ∧ t.Lexed c) c.Faulty := by
  have hlit := strides_literals x (forward_literals x rest.length) [] c (.refl c)
  rw [← List.length_cons, ← hc] at hlit
  exact hlit

/-- Where there are characters, the token takes at least one of them. -/
theorem token_ends_of_cons (mode : Mode) (hc : c.rest = x :: rest) :
    Ends (token mode) c (fun t d => (c.advance 1).Reaches d ∧ t.Lexed c) c.Faulty := by
  refine here_ends.bind ?_
  rintro _ c ⟨rfl, rfl⟩
  refine peek_ends.bind ?_
  rintro _ c ⟨rfl, rfl⟩
  simp only [hc, List.head?_cons]
  split
  · next hx =>
    refine (run_ends Text.isIdentChar).bind ?_
    rintro _ _ ⟨rfl, rfl⟩
    exact (forward_pure (Token.lexed_make (wordKind_ne _ _).1 (wordKind_ne _ _).2)).after
      (length_takeWhile_pos hc (Text.isIdentChar_of_isIdentStart hx)) (.refl c)
  · split
    · next hx => exact number_ends hc hx
    · split
      · exact string_ends hc
      · refine strides_skip_bind ?_ c (.refl c)
        split
        · exact forward_signed x
        · split
          · refine forward_peek.bind fun next _ => ?_
            split
            · exact forward_fraction _
            · exact forward_pure (lexed_single x)
          · exact forward_pure (lexed_single x)

/-- At the end of the text the token is its end. -/
theorem token_ends_of_nil (mode : Mode) (hc : c.rest = []) :
    Ends (token mode) c (fun t d => t = .make .eof [] c.position ∧ d = c) c.Faulty := by
  refine here_ends.bind ?_
  rintro _ c ⟨rfl, rfl⟩
  refine peek_ends.bind ?_
  rintro _ c ⟨rfl, rfl⟩
  simp only [hc, List.head?_nil]
  exact ends_pure ⟨rfl, rfl⟩

end

/-! ## Which token it is -/

section
variable {c : Cursor} {x : Char} {rest : List Char}

theorem token_of_nil (mode : Mode) (hc : c.peek = .ok none) :
    token mode c = .ok (.make .eof [] c.position, c) := by
  rw [token, run_bind (run_here c), run_bind (run_peek hc)]
  rfl

theorem token_of_error {e : LexicalError} (mode : Mode) (hc : c.peek = .error e) :
    token mode c = .error e := by
  rw [token, run_bind (run_here c), run_bind_error (run_peek_error hc)]

theorem token_of_identStart (mode : Mode) (hc : c.rest = x :: rest)
    (hx : Text.isIdentStart x = true) : token mode c = word mode c.position c := by
  rw [token, run_bind (run_here c), run_bind (run_peek (Cursor.peek_of_rest hc))]
  simp only [hx, if_true]

theorem token_of_digit (mode : Mode) (hc : c.rest = x :: rest) (hx : Text.isIdentStart x = false)
    (hd : Text.isDigit x = true) : token mode c = number [] c.position c := by
  rw [token, run_bind (run_here c), run_bind (run_peek (Cursor.peek_of_rest hc))]
  simp only [hx, hd, Bool.false_eq_true, if_false, if_true]

theorem token_of_quote (mode : Mode) (hc : c.rest = x :: rest) (hx : isQuote x = true)
    (hm : mode.strings = true) : token mode c = string x c.position c := by
  have hclass : Text.isIdentStart x = false ∧ Text.isDigit x = false := by
    simp only [isQuote, Bool.or_eq_true, beq_iff_eq] at hx
    rcases hx with rfl | rfl <;> decide
  rw [token, run_bind (run_here c), run_bind (run_peek (Cursor.peek_of_rest hc))]
  simp only [hclass, hx, hm, Bool.and_true, Bool.false_eq_true, if_false, if_true]

/-- A character that opens nothing in this mode is a token by itself. -/
theorem token_of_single (mode : Mode) (hc : c.rest = x :: rest) (hx : Text.isIdentStart x = false)
    (hd : Text.isDigit x = false) (hq : (isQuote x && mode.strings) = false)
    (hn : (mode.numbers && (x == '-' || x == '+' || x == '.')) = false) :
    token mode c = .ok (single x c.position, c.advance 1) := by
  have hsign : (mode.numbers && (x == '-' || x == '+')) = false := by grind
  have hdot : (mode.numbers && x == '.') = false := by grind
  rw [token, run_bind (run_here c), run_bind (run_peek (Cursor.peek_of_rest hc))]
  simp only [hx, hd, hq, hsign, hdot, Bool.false_eq_true, if_false]
  rw [run_bind (run_skip 1 c)]
  rfl

end

/-! ## White space and comments -/

/-- A comment starts with these characters. -/
def OpensComment (rest : List Char) : Prop :=
  ∃ x more, rest = '/' :: x :: more ∧ (x = '/' ∨ x = '*')

/-- White space is passed over, and a comment behind it is seen but not read. -/
theorem gap_ends (c : Cursor) : Ends gap c
    (fun b d => d = c.advance (c.rest.takeWhile isBlank).length ∧ (b = true ↔ OpensComment d.rest))
    c.Faulty := by
  refine (run_ends isBlank).bind ?_
  rintro _ d ⟨rfl, rfl⟩
  have hd := c.reaches_advance (c.rest.takeWhile isBlank).length
  generalize c.advance (c.rest.takeWhile isBlank).length = d at hd ⊢
  refine (peek_ends.mono_error (Cursor.Faulty.of_reaches hd)).bind ?_
  rintro _ d ⟨rfl, rfl⟩
  split
  · next h =>
    refine (peekSecond_ends.mono_error (Cursor.Faulty.of_reaches hd)).bind ?_
    rintro _ d ⟨rfl, rfl⟩
    refine ends_pure ⟨rfl, ?_⟩
    obtain ⟨more, hr⟩ := List.head?_eq_some_iff.1 h
    simp only [OpensComment, hr, List.drop_one, List.tail_cons]
    cases more <;> simp
  · next h =>
    refine ends_pure ⟨rfl, nofun, ?_⟩
    rintro ⟨x, more, hr, -⟩
    simp [hr] at h

theorem untilClosed_bounds {chars : List Char} {n : Nat} (h : untilClosed chars = some n) :
    n ≤ chars.length := by
  induction chars using untilClosed.induct generalizing n with
  | case1 rest =>
    simp only [untilClosed, Option.some.injEq] at h
    simp [← h]
  | case2 char rest hne ih =>
    rw [untilClosed, Option.map_eq_some_iff] at h
    · obtain ⟨m, hm, rfl⟩ := h
      simpa using ih hm
    · exact hne
  | case3 => cases h

end Scan

/-- The token of a comment whose first character is at `c` and whose last one is before `d`. -/
def Token.Comments (t : Token) (c d : Cursor) : Prop :=
  ∃ n text, 2 ≤ n ∧ n ≤ c.rest.length ∧ d = c.advance n ∧
    t = { kind := .comment, text, position := c.position, last := some (c.advance (n - 1)).position }

namespace Scan

variable {c : Cursor}

theorem commentOf_ends {n : Nat} (h2 : 2 ≤ n) (hn : n ≤ c.rest.length)
    (trim : List Char → List Char) {E : LexicalError → Prop} :
    Ends (commentOf n trim) c (fun t d => t.Comments c d) E :=
  ⟨n, _, h2, hn, rfl, rfl⟩

/-- What is true of the comment behind either opening, and of one that is not closed, is true of what is
read. -/
theorem comment_cases {Q : Token → Cursor → Prop} {E : LexicalError → Prop} (hc : OpensComment c.rest)
    (hE : ∀ {e}, c.Faulty e → E e)
    (hline : ∀ more, c.rest = '/' :: '/' :: more →
      Ends (commentOf (c.rest.takeWhile (· != '\n')).length dropReturns) c Q E)
    (hblock : ∀ more n, c.rest = '/' :: '*' :: more → untilClosed more = some n →
      n + 2 ≤ c.rest.length → Ends (commentOf (n + 2) id) c Q E)
    (hopen : Q (.malformed c.rest .unterminatedComment c.position) c.atEnd) : Ends comment c Q E := by
  obtain ⟨x, more, hr, hx⟩ := hc
  refine (peekSecond_ends.mono_error hE).bind ?_
  rintro _ c ⟨rfl, rfl⟩
  split
  · next hslash =>
    obtain rfl : x = '/' := by simpa [hr] using hslash
    refine Ends.bind (P := fun a d => a = c ∧ d = c) ⟨rfl, rfl⟩ ?_
    rintro _ c ⟨rfl, rfl⟩
    refine ((run_ends _).mono_error hE).bind ?_
    rintro _ _ ⟨rfl, rfl⟩
    refine Ends.bind (P := fun _ d => d = c) rfl ?_
    rintro _ c rfl
    exact hline more hr
  · next hslash =>
    obtain rfl : x = '*' := hx.resolve_left (by simpa [hr] using hslash)
    refine Ends.bind (P := fun a d => a = c ∧ d = c) ⟨rfl, rfl⟩ ?_
    rintro _ c ⟨rfl, rfl⟩
    split
    · next n hn =>
      have hmore : c.rest.drop 2 = more := by rw [hr]; rfl
      rw [hmore] at hn
      have hle := untilClosed_bounds hn
      have hlen : c.rest.length = more.length + 2 := by rw [hr]; rfl
      exact hblock more n hr hn (by omega)
    · refine (skip_ends _).bind ?_
      rintro _ _ rfl
      have hend := c.reaches_advance c.rest.length
      refine (peek_ends.mono_error fun he => hE (he.of_reaches hend)).bind ?_
      rintro _ _ ⟨-, rfl⟩
      exact ends_pure hopen

/-- A comment is read as a whole, or it is not closed and all of the text is read. -/
theorem comment_ends (hc : OpensComment c.rest) : Ends comment c
    (fun t d => t.Comments c d ∨
      t = .malformed c.rest .unterminatedComment c.position ∧ d = c.atEnd) c.Faulty := by
  refine comment_cases hc id ?line ?block (.inr ⟨rfl, rfl⟩)
  case line =>
    intro more hr
    refine (commentOf_ends ?_ (List.takeWhile_prefix _).length_le _).mono fun _ _ h => .inl h
    simp [hr]
  case block =>
    intro more n _ _ hlen
    exact (commentOf_ends (by omega) hlen _).mono fun _ _ h => .inl h

end Scan

end ProtoIdl
