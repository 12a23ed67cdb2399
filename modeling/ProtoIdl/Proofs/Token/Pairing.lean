import ProtoIdl.Proofs.Token.Bounds
import ProtoIdl.Proofs.Tree.Move
/-!
# Scanning in pairs of texts

A `Pairing` relates the cursors of two texts that read alike, as long as a step does not read too far
on the left. White space may be paired with other white space. A token that is no string takes none of
it, and to be followed by white space is the same for it as to be followed by nothing. So it is read on
the right where it is read on the left: `Scan.pairs_word`, `Scan.pairs_number`, `Scan.pairs_signed` and
`Scan.pairs_fraction`.
-/
namespace ProtoIdl

namespace Scan

/-- A class of characters without white space. -/
def Solid (p : Char → Bool) : Prop := ∀ x, isBlank x = true → p x = false

theorem isBlank_cases {x : Char} (h : isBlank x = true) :
    x = ' ' ∨ x = '\t' ∨ x = '\r' ∨ x = '\n' := by
  simpa [isBlank, or_assoc] using h

theorem solid_of_ascii {p : Char → Bool}
    (h : p ' ' = false ∧ p '\t' = false ∧ p '\r' = false ∧ p '\n' = false) : Solid p := by
  intro x hx
  rcases isBlank_cases hx with rfl | rfl | rfl | rfl
  exacts [h.1, h.2.1, h.2.2.1, h.2.2.2]

theorem solid_isNumberTail : Solid isNumberTail := solid_of_ascii (by decide)

theorem solid_isIdentChar : Solid Text.isIdentChar := solid_of_ascii (by decide)

theorem solid_isIdentStart : Solid Text.isIdentStart := solid_of_ascii (by decide)

theorem solid_isDigit : Solid Text.isDigit := solid_of_ascii (by decide)

theorem solid_isHexDigit : Solid Text.isHexDigit := solid_of_ascii (by decide)

theorem solid_isQuote : Solid isQuote := solid_of_ascii (by decide)

theorem ne_of_blank {x y : Char} (hx : isBlank x = true) (hy : isBlank y = false) : x ≠ y := by
  rintro rfl
  rw [hx] at hy
  cases hy

/-- The next character, if there is one and it is no white space. -/
def ink (o : Option Char) : Option Char := o.filter (!isBlank ·)

/-- White space is seen as the end of the text. -/
def Blind {β : Type} (f : Option Char → β) : Prop := ∀ x, isBlank x = true → f (some x) = f none

theorem ink_eq_some {o : Option Char} {x : Char} : ink o = some x ↔ o = some x ∧ isBlank x = false := by
  cases o <;> simp [ink, Option.filter]
  grind

theorem Blind.ink {β : Type} {f : Option Char → β} (h : Blind f) (o : Option Char) : f (ink o) = f o := by
  cases o with
  | none => rfl
  | some x =>
    cases hx : isBlank x with
    | true => rw [h x hx, Scan.ink, Option.filter_some, hx]; rfl
    | false => rw [Scan.ink, Option.filter_some, hx]; rfl

end Scan

/-- A relation between the cursors of two texts. -/
structure Pairing where
  /-- The place on the right of a place on the left. -/
  move : Position → Position
  /-- The cursors are in corresponding places. -/
  rel : Cursor → Cursor → Prop
  /-- A step that ends here has not read too far on the left. -/
  good : Cursor → Prop

/-- Cursors in corresponding places see the same, but for white space. -/
structure Pairing.Lawful (P : Pairing) : Prop where
  good_of_reaches {c d : Cursor} : c.Reaches d → P.good d → P.good c
  good_behind_dot {c : Cursor} : c.rest.head? = some '.' → P.good c → P.good (c.advance 1)
  position {c c' : Cursor} : P.rel c c' → c'.position = P.move c.position
  peek {c c' : Cursor} : P.rel c c' → P.good c →
    ∃ o, c'.peek = .ok o ∧ Scan.ink o = Scan.ink c.rest.head?
  advance {c c' : Cursor} {x : Char} : P.rel c c' → c.rest.head? = some x → Scan.isBlank x = false →
    P.good (c.advance 1) → P.rel (c.advance 1) (c'.advance 1)

namespace Scan

variable {α β γ δ : Type} {P : Pairing} {c d : Cursor}

/-- From `c` on the step goes forward, and where it ends well, `y` does the same on the right, with
the answer changed by `φ`. -/
def Pairs (P : Pairing) (φ : α → β) (x : Scan α) (y : Scan β) (c : Cursor) : Prop :=
  ∀ a d, x c = .ok (a, d) → c.Reaches d ∧
    ∀ c', P.rel c c' → P.good d → ∃ d', y c' = .ok (φ a, d') ∧ P.rel d d'

variable {φ : α → β} {ψ : γ → δ} {x : Scan α} {y : Scan β}

theorem pairs_pure {a : α} {b : β} (h : φ a = b) : Pairs P φ (pure a) (pure b) c := by
  rintro _ _ ⟨⟩
  exact ⟨.refl c, fun c' hc _ => ⟨c', h ▸ rfl, hc⟩⟩

variable (hP : P.Lawful)
include hP

theorem Pairs.bind {f : α → Scan γ} {g : β → Scan δ} (hx : Pairs P φ x y c)
    (hf : ∀ a d, x c = .ok (a, d) → Pairs P ψ (f a) (g (φ a)) d) :
    Pairs P ψ (x >>= f) (y >>= g) c := by
  intro b e hb
  cases hc : x c with
  | error e =>
    rw [run_bind_error hc] at hb
    cases hb
  | ok a =>
    obtain ⟨a, d⟩ := a
    rw [run_bind hc] at hb
    obtain ⟨hd, hy⟩ := hx a d hc
    obtain ⟨hde, hg⟩ := hf a d hc b e hb
    refine ⟨hd.trans hde, fun c' hr he => ?_⟩
    obtain ⟨d', hd', hr'⟩ := hy c' hr (hP.good_of_reaches hde he)
    rw [run_bind hd']
    exact hg d' hr' he

theorem pairs_here : Pairs P P.move here here c := by
  rintro _ _ ⟨⟩
  exact ⟨.refl c, fun c' hr _ => ⟨c', by rw [run_here, hP.position hr], hr⟩⟩

/-- What is done with the next character, if white space is as good as nothing. -/
theorem pairs_peek_bind {f : Option Char → Scan γ} {g : Option Char → Scan δ} (hf : Blind f)
    (hg : Blind g)
    (h : ∀ o, (∀ x, o = some x → c.rest.head? = some x ∧ isBlank x = false) →
      Pairs P ψ (f o) (g o) c) : Pairs P ψ (peek >>= f) (peek >>= g) c := by
  intro b e hb
  cases hc : peek c with
  | error e =>
    rw [run_bind_error hc] at hb
    cases hb
  | ok a =>
    obtain ⟨o, d⟩ := a
    rw [run_bind hc] at hb
    obtain ⟨rfl, rfl⟩ := peek_ends.ok hc
    rw [← hf.ink] at hb
    obtain ⟨he, hright⟩ := h _ (fun x hx => ink_eq_some.1 hx) b e hb
    refine ⟨he, fun c' hr hgood => ?_⟩
    obtain ⟨o, ho, hink⟩ := hP.peek hr (hP.good_of_reaches he hgood)
    rw [run_bind (run_peek ho), ← hg.ink, hink]
    exact hright c' hr hgood

/-- What is done with the next character, if it is known and no white space. -/
theorem pairs_known_bind {f : Option Char → Scan γ} {g : Option Char → Scan δ} {x : Char}
    (hx : c.rest.head? = some x) (hb : isBlank x = false)
    (h : Pairs P ψ (f (some x)) (g (some x)) c) : Pairs P ψ (peek >>= f) (peek >>= g) c := by
  intro b e hb'
  obtain ⟨rest, hr⟩ := List.head?_eq_some_iff.1 hx
  rw [run_bind (run_peek (Cursor.peek_of_rest hr))] at hb'
  obtain ⟨he, hright⟩ := h b e hb'
  refine ⟨he, fun c' hc' hgood => ?_⟩
  obtain ⟨o, ho, hink⟩ := hP.peek hc' (hP.good_of_reaches he hgood)
  rw [hx, ink_eq_some.2 ⟨rfl, hb⟩] at hink
  rw [run_bind (run_peek ho), (ink_eq_some.1 hink).1]
  exact hright c' hc' hgood

/-- What is done behind the next character, which was looked at. -/
theorem pairs_skip_bind {f : Unit → Scan γ} {g : Unit → Scan δ} {x : Char}
    (hx : c.rest.head? = some x) (hb : isBlank x = false)
    (h : Pairs P ψ (f ()) (g ()) (c.advance 1)) : Pairs P ψ (skip 1 >>= f) (skip 1 >>= g) c := by
  intro b e he
  rw [run_bind (run_skip 1 c)] at he
  obtain ⟨hreach, hright⟩ := h b e he
  refine ⟨(c.reaches_advance 1).trans hreach, fun c' hr hgood => ?_⟩
  rw [run_bind (run_skip 1 c')]
  exact hright _ (hP.advance hr hx hb (hP.good_of_reaches hreach hgood)) hgood

theorem pairs_upTo (n : Nat) {p : Char → Bool} (hp : Solid p) :
    Pairs P id (upTo n p) (upTo n p) c := by
  induction n generalizing c with
  | zero => exact pairs_pure rfl
  | succ n ih =>
    refine pairs_peek_bind hP (fun x hx => by simp [hp x hx]) (fun x hx => by simp [hp x hx])
      fun next hnext => ?_
    cases next with
    | none => exact pairs_pure rfl
    | some x =>
      obtain ⟨hx, hb⟩ := hnext x rfl
      dsimp only
      split
      · exact pairs_skip_bind hP hx hb (ih.bind hP fun _ _ _ => pairs_pure rfl)
      · exact pairs_pure rfl

/-- In corresponding places the next character is the same, unless it is white space. -/
theorem head_of_rel {c' : Cursor} (h : P.rel c c') (hc : P.good c) :
    ink c'.rest.head? = ink c.rest.head? := by
  obtain ⟨o, ho, hink⟩ := hP.peek h hc
  rcases c'.peek_cases with hp | ⟨e, hp, -⟩
  · rw [← hink, ← Except.ok.inj (hp.symm.trans ho)]
  · cases hp.symm.trans ho

theorem takeWhile_of_rel {c' : Cursor} {p : Char → Bool} (hp : Solid p) (h : P.rel c c')
    (hc : P.good (c.advance (c.rest.takeWhile p).length)) :
    c'.rest.takeWhile p = c.rest.takeWhile p ∧
      P.rel (c.advance (c.rest.takeWhile p).length) (c'.advance (c.rest.takeWhile p).length) := by
  have hhead := head_of_rel hP h (hP.good_of_reaches (c.reaches_advance _) hc)
  have hsome {o : Option Char} {x : Char} (ho : o = some x) (hx : p x = true) : ink o = some x :=
    ink_eq_some.2 ⟨ho, Bool.eq_false_iff.2 fun hb => by rw [hp x hb] at hx; cases hx⟩
  generalize hn : (c.rest.takeWhile p).length = n at hc
  induction n generalizing c c' with
  | zero =>
    have hnil := List.eq_nil_of_length_eq_zero hn
    rw [hnil, Cursor.advance_zero, Cursor.advance_zero]
    refine ⟨?_, h⟩
    rcases hr' : c'.rest with _ | ⟨y, rest⟩
    · rfl
    · cases hy : p y with
      | false => rw [List.takeWhile_cons, hy]; rfl
      | true =>
        -- the character would be on the left as well
        rw [hr', List.head?_cons, hsome rfl hy] at hhead
        obtain ⟨more, hr⟩ := List.head?_eq_some_iff.1 (ink_eq_some.1 hhead.symm).1
        rw [hr, List.takeWhile_cons, hy] at hnil
        cases hnil
  | succ n ih =>
    rcases hr : c.rest with _ | ⟨x, rest⟩
    · rw [hr] at hn
      cases hn
    · cases hx : p x with
      | false =>
        rw [hr, List.takeWhile_cons, hx] at hn
        cases hn
      | true =>
        rw [hr, List.head?_cons, hsome rfl hx] at hhead
        obtain ⟨hhead', hb⟩ := ink_eq_some.1 hhead
        obtain ⟨rest', hr'⟩ := List.head?_eq_some_iff.1 hhead'
        have hlen : (rest.takeWhile p).length = n := by
          rw [hr, List.takeWhile_cons, hx] at hn
          exact Nat.succ.inj hn
        have hstep : c.advance (n + 1) = (c.advance 1).advance n := by
          rw [Nat.add_comm, Cursor.advance_add]
        have hstep' : c'.advance (n + 1) = (c'.advance 1).advance n := by
          rw [Nat.add_comm, Cursor.advance_add]
        have hgood : P.good ((c.advance 1).advance n) := hstep ▸ hc
        have hrel : P.rel (c.advance 1) (c'.advance 1) := hP.advance h (by rw [hr]; rfl) hb
          (hP.good_of_reaches (Cursor.reaches_advance _ n) hgood)
        have hrest : (c.advance 1).rest = rest := by simp [hr]
        have hrest' : (c'.advance 1).rest = rest' := by simp [hr']
        obtain ⟨htake, hend⟩ := ih hrel
          (head_of_rel hP hrel (hP.good_of_reaches (Cursor.reaches_advance _ n) hgood))
          (by rw [hrest, hlen]) hgood
        rw [hrest, hrest'] at htake
        rw [hr', List.takeWhile_cons, List.takeWhile_cons, hx, htake, hstep, hstep']
        exact ⟨rfl, hend⟩

theorem pairs_run {p : Char → Bool} (hp : Solid p) : Pairs P id (run p) (run p) c := by
  intro cs d hd
  obtain ⟨rfl, rfl⟩ := (run_ends p).ok hd
  refine ⟨c.reaches_advance _, fun c' hr hgood => ?_⟩
  obtain ⟨htake, hrel⟩ := takeWhile_of_rel hP hp hr hgood
  obtain ⟨o, ho, -⟩ := hP.peek hrel hgood
  refine ⟨_, ?_, hrel⟩
  simp only [run, htake, bind, Except.bind, ho]
  rfl

/-- What is done with the character behind a point. -/
theorem pairs_peekSecond_bind {f : Option Char → Scan γ} {g : Option Char → Scan δ} (hf : Blind f)
    (hg : Blind g) (hc : c.rest.head? = some '.')
    (h : ∀ o, (∀ x, o = some x → isBlank x = false) → Pairs P ψ (f o) (g o) c) :
    Pairs P ψ (peekSecond >>= f) (peekSecond >>= g) c := by
  intro b e hb
  cases hsecond : peekSecond c with
  | error e =>
    rw [run_bind_error hsecond] at hb
    cases hb
  | ok a =>
    obtain ⟨o, d⟩ := a
    rw [run_bind hsecond] at hb
    obtain ⟨rfl, rfl⟩ := peekSecond_ends.ok hsecond
    rw [← hf.ink] at hb
    obtain ⟨he, hright⟩ := h _ (fun x hx => (ink_eq_some.1 hx).2) b e hb
    refine ⟨he, fun c' hr hgood => ?_⟩
    have hbehind := hP.good_behind_dot hc (hP.good_of_reaches he hgood)
    obtain ⟨o, ho, hink⟩ := hP.peek (hP.advance hr hc rfl hbehind) hbehind
    have hpeek : peekSecond c' = .ok (o, c') := by
      simp only [peekSecond, bind, Except.bind, ho]
      rfl
    rw [run_bind hpeek, ← hg.ink, hink]
    exact hright c' hr hgood

/-! ## Numbers and words -/

section
variable (chars : List Char) (start : Position)

theorem pairs_malformedNumber : Pairs P (Token.move P.move) (malformedNumber chars start)
    (malformedNumber chars (P.move start)) c :=
  (pairs_run hP solid_isNumberTail).bind hP fun _ _ _ => pairs_pure rfl

theorem pairs_completeNumber (kind : Kind) : Pairs P (Token.move P.move)
    (completeNumber kind chars start) (completeNumber kind chars (P.move start)) c := by
  refine pairs_peek_bind hP (fun x hx => by simp [solid_isNumberTail x hx])
    (fun x hx => by simp [solid_isNumberTail x hx]) fun next _ => ?_
  cases next with
  | none => exact pairs_pure rfl
  | some x =>
    dsimp only
    split
    · exact pairs_malformedNumber hP chars start
    · exact pairs_pure rfl

theorem pairs_exponent (isFloat : Bool) : Pairs P (Token.move P.move)
    (exponent chars isFloat start) (exponent chars isFloat (P.move start)) c := by
  have hsign : Solid fun x => x == '+' || x == '-' := solid_of_ascii (by decide)
  have hletter {x : Char} (hx : isBlank x = true) : x ≠ 'e' ∧ x ≠ 'E' :=
    ⟨ne_of_blank hx rfl, ne_of_blank hx rfl⟩
  refine pairs_peek_bind hP (fun x hx => by simp [hletter hx]) (fun x hx => by simp [hletter hx])
    fun next hnext => ?_
  by_cases hn : next = some 'e' ∨ next = some 'E'
  · obtain ⟨x, rfl⟩ : ∃ x, next = some x := by
      rcases hn with rfl | rfl <;> exact ⟨_, rfl⟩
    obtain ⟨hx, hb⟩ := hnext x rfl
    rw [if_pos hn, if_pos hn]
    refine pairs_skip_bind hP hx hb ((pairs_upTo hP 1 hsign).bind hP fun sign _ _ =>
      (pairs_run hP solid_isDigit).bind hP fun digits _ _ => ?_)
    dsimp only [id]
    split
    · exact pairs_malformedNumber hP _ start
    · exact pairs_completeNumber hP _ start _
  · rw [if_neg hn, if_neg hn]
    split
    · exact pairs_completeNumber hP _ start _
    · split
      · exact pairs_malformedNumber hP _ start
      · exact pairs_completeNumber hP _ start _

theorem pairs_fraction : Pairs P (Token.move P.move) (fraction chars start)
    (fraction chars (P.move start)) c :=
  (pairs_run hP solid_isDigit).bind hP fun _ _ _ => pairs_exponent hP _ start true

theorem pairs_decimal : Pairs P (Token.move P.move) (decimal chars start)
    (decimal chars (P.move start)) c := by
  have hdot {x : Char} (hx : isBlank x = true) : x ≠ '.' := ne_of_blank hx rfl
  refine (pairs_run hP solid_isDigit).bind hP fun digits _ _ => pairs_peek_bind hP
    (fun x hx => by simp [hdot hx]) (fun x hx => by simp [hdot hx]) fun next hnext => ?_
  split
  · next h =>
    obtain ⟨hx, hb⟩ := hnext _ h
    exact pairs_skip_bind hP hx hb (pairs_fraction hP _ start)
  · exact pairs_exponent hP _ start false

theorem pairs_hexadecimal : Pairs P (Token.move P.move) (hexadecimal chars start)
    (hexadecimal chars (P.move start)) c := by
  refine (pairs_run hP solid_isHexDigit).bind hP fun digits _ _ => ?_
  dsimp only [id]
  split
  · exact pairs_malformedNumber hP _ start
  · exact pairs_completeNumber hP _ start _

theorem pairs_number : Pairs P (Token.move P.move) (number chars start)
    (number chars (P.move start)) c := by
  have hzero {x : Char} (hx : isBlank x = true) : x ≠ '0' := ne_of_blank hx rfl
  have hletter {x : Char} (hx : isBlank x = true) : x ≠ 'x' ∧ x ≠ 'X' :=
    ⟨ne_of_blank hx rfl, ne_of_blank hx rfl⟩
  refine pairs_peek_bind hP (fun x hx => by simp [hzero hx]) (fun x hx => by simp [hzero hx])
    fun first hfirst => ?_
  split
  · next h =>
    obtain ⟨hx, hb⟩ := hfirst _ h
    refine pairs_skip_bind hP hx hb (pairs_peek_bind hP (fun x hx => by simp [hletter hx])
      (fun x hx => by simp [hletter hx]) fun next hnext => ?_)
    split
    · next h =>
      obtain ⟨x, rfl⟩ : ∃ x, next = some x := by
        rcases h with rfl | rfl <;> exact ⟨_, rfl⟩
      obtain ⟨hx, hb⟩ := hnext x rfl
      exact pairs_skip_bind hP hx hb (pairs_hexadecimal hP _ start)
    · exact pairs_decimal hP _ start
  · exact pairs_decimal hP _ start

theorem pairs_word (mode : Mode) : Pairs P (Token.move P.move) (word mode start)
    (word mode (P.move start)) c :=
  (pairs_run hP solid_isIdentChar).bind hP fun _ _ _ => pairs_pure rfl

omit hP in
theorem move_single (f : Position → Position) (x : Char) :
    (single x start).move f = single x (f start) := by
  unfold single
  split <;> rfl

theorem pairs_signed (sign : Char) : Pairs P (Token.move P.move) (signed sign start)
    (signed sign (P.move start)) c := by
  have hdot {x : Char} (hx : isBlank x = true) : x ≠ '.' := ne_of_blank hx rfl
  refine pairs_peek_bind hP
    (fun x hx => by simp [solid_isDigit x hx, solid_isIdentStart x hx, hdot hx])
    (fun x hx => by simp [solid_isDigit x hx, solid_isIdentStart x hx, hdot hx])
    fun next hnext => ?_
  cases next with
  | none => exact pairs_pure (move_single start P.move sign)
  | some x =>
    obtain ⟨hx, hb⟩ := hnext x rfl
    dsimp only
    split
    · exact pairs_number hP _ start
    · split
      · next h =>
        refine pairs_peekSecond_bind hP (fun x hx => by simp [solid_isDigit x hx])
          (fun x hx => by simp [solid_isDigit x hx]) (h ▸ hx) fun second _ => ?_
        split
        · exact pairs_skip_bind hP hx hb (pairs_fraction hP _ start)
        · exact pairs_pure (move_single start P.move sign)
      · split
        · exact (pairs_run hP solid_isIdentChar).bind hP fun _ _ _ => pairs_pure rfl
        · exact pairs_pure (move_single start P.move sign)

end

/-- A token that is no string. -/
theorem pairs_token (mode : Mode) {x : Char} (hx : c.rest.head? = some x) (hb : isBlank x = false)
    (hq : (isQuote x && mode.strings) = false) :
    Pairs P (Token.move P.move) (token mode) (token mode) c := by
  refine (pairs_here hP).bind hP fun start d hstart => ?_
  obtain ⟨-, rfl⟩ := (here_ends (E := fun _ => True)).ok hstart
  refine pairs_known_bind hP hx hb ?_
  dsimp only
  have hsingle (e : Cursor) : Pairs P (Token.move P.move) (pure (single x start))
      (pure (single x (P.move start))) e := pairs_pure (move_single start P.move x)
  split
  · exact pairs_word hP start mode
  · split
    · exact pairs_number hP [] start
    · rw [hq, if_neg Bool.false_ne_true, if_neg Bool.false_ne_true]
      refine pairs_skip_bind hP hx hb ?_
      split
      · exact pairs_signed hP start x
      · split
        · refine pairs_peek_bind hP (fun y hy => by simp [solid_isDigit y hy])
            (fun y hy => by simp [solid_isDigit y hy]) fun following _ => ?_
          split
          · exact pairs_fraction hP _ start
          · exact hsingle _
        · exact hsingle _

end Scan

end ProtoIdl
