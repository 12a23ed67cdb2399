import ProtoIdl.Proofs.Token.Pairing
/-!
# Scanning two texts side by side

A `Seam` describes two texts that are alike up to some place: the left one ends there with `tail`, and
the right one goes on behind it. The right text may also stand elsewhere in its file. A scanning step
that leaves `tail` unread on the left has not seen where the left text ends, so it does the same on the
right: `Scan.Tracks`. A character is looked at beyond the next one behind a slash or a point only, and
`tail` starts with neither: it starts with a character that ends a declaration.

Main statements: `Scan.tracks_token`, `Scan.tracks_gap` and `Scan.tracks_comment`.
-/
namespace ProtoIdl

/-- What is left further on is the end of what is left here. -/
theorem Cursor.Reaches.suffix {c d : Cursor} : c.Reaches d → d.rest <:+ c.rest
  | ⟨n, h⟩ => by
    rw [h, rest_advance]
    exact List.drop_suffix n c.rest

/-- A character that ends declarations and bodies. -/
def Seam.isStop (c : Char) : Bool := c == ';' || c == '}'

/-- Two texts that are alike up to some place. -/
structure Seam where
  /-- How much further the right text stands in its file, in octets. -/
  offset : Int := 0
  /-- The same in lines. -/
  line : Int := 0
  /-- The last characters of the left text. -/
  tail : List Char := []
  /-- What the right text has behind them. -/
  more : List Char := []
  /-- What makes the octets behind the right text ill-formed, if they are. -/
  ending : Option Utf8.Fault := none
  /-- The right text goes on only behind a stop, by which a step sees that the left one has not
  ended. -/
  stop : ∀ x rest, tail = x :: rest → Seam.isStop x = true
  closed : tail = [] → more = [] ∧ ending = none

namespace Seam

/-- The place on the right of a place on the left. -/
def move (s : Seam) : Position → Position := Position.shift s.offset s.line

/-- The cursor on the right of a cursor on the left. -/
def right (s : Seam) (c : Cursor) : Cursor :=
  { rest := c.rest ++ s.more, ending := s.ending, position := s.move c.position }

/-- The last characters of the left text are unread. -/
def Leaves (s : Seam) (c : Cursor) : Prop := s.tail <:+ c.rest

variable {s : Seam} {c d : Cursor}

theorem Leaves.of_reaches (h : c.Reaches d) (hd : s.Leaves d) : s.Leaves c := hd.trans h.suffix

/-- At the end of the left text there is nothing more on the right. -/
theorem Leaves.more_eq_nil (h : s.Leaves c) (hc : c.rest = []) : s.more = [] ∧ s.ending = none := by
  rw [Leaves, hc, List.suffix_nil] at h
  exact s.closed h

/-- The characters of the left text are on the right too. -/
theorem take_right {n : Nat} (hn : n ≤ c.rest.length ∨ s.more = []) :
    (s.right c).rest.take n = c.rest.take n := by
  rw [right]
  rcases hn with hn | hn
  · exact List.take_append_of_le_length hn
  · rw [hn, List.append_nil]

theorem right_advance {n : Nat} (hn : n ≤ c.rest.length ∨ s.more = []) :
    s.right (c.advance n) = (s.right c).advance n := by
  have hpos : s.move (c.position.after (c.rest.take n)) =
      (s.move c.position).after ((s.right c).rest.take n) := by
    rw [take_right hn]
    exact Position.shift_after _
  simp only [right, Cursor.advance, Cursor.mk.injEq, true_and]
  refine ⟨?_, hpos⟩
  rcases hn with hn | hn
  · exact (List.drop_append_of_le_length hn).symm
  · rw [hn, List.append_nil, List.append_nil]

theorem Leaves.le_or_nil {n : Nat} (h : s.Leaves (c.advance n)) :
    n ≤ c.rest.length ∨ s.more = [] := by
  by_cases hn : n ≤ c.rest.length
  · exact .inl hn
  · exact .inr (h.more_eq_nil (List.drop_of_length_le (by omega))).1

theorem Leaves.right_advance {n : Nat} (h : s.Leaves (c.advance n)) :
    s.right (c.advance n) = (s.right c).advance n := Seam.right_advance h.le_or_nil

/-- No tail starts with a slash or a point. -/
theorem Leaves.behind {x : Char} (hx : x = '/' ∨ x = '.') (hc : c.rest.head? = some x)
    (h : s.Leaves c) : s.Leaves (c.advance 1) := by
  obtain ⟨rest, hr⟩ := List.head?_eq_some_iff.1 hc
  rw [Leaves, hr] at h
  rw [Leaves, Cursor.rest_advance, hr, List.drop_one, List.tail_cons]
  refine (List.suffix_cons_iff.1 h).resolve_left fun ht => ?_
  have hstop := s.stop x rest ht
  rcases hx with rfl | rfl <;> cases hstop

theorem Leaves.right_peek (h : s.Leaves c) : (s.right c).peek = .ok c.rest.head? := by
  rcases hc : c.rest with _ | ⟨x, rest⟩
  · obtain ⟨hmore, hending⟩ := h.more_eq_nil hc
    simp [Cursor.peek, right, hc, hmore, hending]
  · simp [Cursor.peek, right, hc]

theorem Leaves.takeWhile_eq {p : Char → Bool}
    (h : s.Leaves (c.advance (c.rest.takeWhile p).length)) :
    (s.right c).rest.takeWhile p = c.rest.takeWhile p := by
  have hdrop : (c.rest.drop (c.rest.takeWhile p).length).takeWhile p = [] :=
    Scan.takeWhile_drop_takeWhile p c.rest
  rw [right, List.takeWhile_append]
  split
  · next hall =>
    have hnil : c.rest.drop (c.rest.takeWhile p).length = [] := by rw [hall, List.drop_length]
    rw [(h.more_eq_nil hnil).1, List.takeWhile_nil, List.append_nil]
    exact (List.takeWhile_prefix p).eq_of_length hall |>.symm
  · rfl

end Seam

namespace Scan

variable {α β γ δ : Type} {s : Seam} {c d : Cursor}

/-- From `c` on the step goes forward, and where it leaves the tail unread, `y` does the same on the
right, with the answer changed by `φ`. -/
def Tracks (s : Seam) (φ : α → β) (x : Scan α) (y : Scan β) (c : Cursor) : Prop :=
  c.ending = none → ∀ a d, x c = .ok (a, d) →
    c.Reaches d ∧ (s.Leaves d → y (s.right c) = .ok (φ a, s.right d))

section
variable {φ : α → β} {ψ : γ → δ} {x : Scan α} {y : Scan β}

theorem tracks_pure_of_leaves {a : α} {b : β} (h : s.Leaves c → φ a = b) :
    Tracks s φ (pure a) (pure b) c := by
  rintro - _ _ ⟨⟩
  exact ⟨.refl c, fun hs => h hs ▸ rfl⟩

theorem tracks_pure {a : α} {b : β} (h : φ a = b) : Tracks s φ (pure a) (pure b) c :=
  tracks_pure_of_leaves fun _ => h

theorem Tracks.bind {f : α → Scan γ} {g : β → Scan δ} (hx : Tracks s φ x y c)
    (hf : ∀ a d, x c = .ok (a, d) → Tracks s ψ (f a) (g (φ a)) d) :
    Tracks s ψ (x >>= f) (y >>= g) c := by
  intro he b e hb
  cases hc : x c with
  | error e =>
    rw [run_bind_error hc] at hb
    cases hb
  | ok a =>
    obtain ⟨a, d⟩ := a
    rw [run_bind hc] at hb
    obtain ⟨hd, hy⟩ := hx he a d hc
    obtain ⟨hde, hg⟩ := hf a d hc (hd.ending_eq.trans he) b e hb
    refine ⟨hd.trans hde, fun hs => ?_⟩
    rw [run_bind (hy (hs.of_reaches hde))]
    exact hg hs

theorem tracks_here : Tracks s s.move here here c := by
  rintro - _ _ ⟨⟩
  exact ⟨.refl c, fun _ => rfl⟩

theorem tracks_skip (n : Nat) : Tracks s id (skip n) (skip n) c := by
  rintro - _ _ ⟨⟩
  refine ⟨c.reaches_advance n, fun hs => ?_⟩
  rw [run_skip, hs.right_advance]

theorem tracks_peek : Tracks s id peek peek c := by
  intro he a d ha
  obtain ⟨rfl, rfl⟩ := peek_ends.ok ha
  exact ⟨.refl _, fun hs => run_peek hs.right_peek⟩

theorem tracks_run (p : Char → Bool) : Tracks s id (run p) (run p) c := by
  intro he a d ha
  obtain ⟨rfl, rfl⟩ := (run_ends p).ok ha
  refine ⟨c.reaches_advance _, fun hs => ?_⟩
  have hp : ((s.right c).advance (c.rest.takeWhile p).length).peek = .ok _ :=
    hs.right_advance ▸ hs.right_peek
  simp only [run, hs.takeWhile_eq, bind, Except.bind, hp, hs.right_advance]
  rfl

/-- Behind a slash or a point the character that follows is the same on both sides. -/
theorem tracks_peekSecond {x : Char} (hc : c.rest.head? = some x) (hx : x = '/' ∨ x = '.') :
    Tracks s id peekSecond peekSecond c := by
  intro he a d ha
  obtain ⟨rfl, rfl⟩ := peekSecond_ends.ok ha
  refine ⟨.refl _, fun hs => ?_⟩
  have hs := Seam.Leaves.behind hx hc hs
  have hp := hs.right_peek
  rw [hs.right_advance] at hp
  simp only [peekSecond, bind, Except.bind, hp]
  rfl

theorem tracks_upTo (n : Nat) (p : Char → Bool) : Tracks s id (upTo n p) (upTo n p) c := by
  induction n generalizing c with
  | zero => exact tracks_pure rfl
  | succ n ih =>
    refine tracks_peek.bind fun next d _ => ?_
    cases next with
    | none => exact tracks_pure rfl
    | some x =>
      dsimp only [id]
      split
      · exact (tracks_skip 1).bind fun _ _ _ => ih.bind fun _ _ _ => tracks_pure rfl
      · exact tracks_pure rfl

end

/-! ## Numbers and words -/

/-- Cursors on both sides of a seam see the same. -/
def pairing (s : Seam) : Pairing where
  move := s.move
  rel c c' := c' = s.right c
  good := s.Leaves

theorem pairing_lawful (s : Seam) : (pairing s).Lawful where
  good_of_reaches := Seam.Leaves.of_reaches
  good_behind_dot := Seam.Leaves.behind (.inr rfl)
  position h := h ▸ rfl
  peek h hc := h ▸ ⟨_, hc.right_peek, rfl⟩
  advance h _ _ hc := h ▸ hc.right_advance.symm

theorem Pairs.tracks {φ : α → β} {x : Scan α} {y : Scan β} (h : Pairs (pairing s) φ x y c) :
    Tracks s φ x y c := by
  intro _ a d ha
  obtain ⟨hd, hright⟩ := h a d ha
  refine ⟨hd, fun hs => ?_⟩
  obtain ⟨_, hy, rfl⟩ := hright _ rfl hs
  exact hy

section
variable (chars : List Char) (start : Position)

theorem tracks_fraction : Tracks s (Token.move s.move) (fraction chars start)
    (fraction chars (s.move start)) c := (pairs_fraction (pairing_lawful s) chars start).tracks

theorem tracks_number : Tracks s (Token.move s.move) (number chars start)
    (number chars (s.move start)) c := (pairs_number (pairing_lawful s) chars start).tracks

theorem tracks_word (mode : Mode) : Tracks s (Token.move s.move) (word mode start)
    (word mode (s.move start)) c := (pairs_word (pairing_lawful s) start mode).tracks

theorem tracks_signed (sign : Char) : Tracks s (Token.move s.move) (signed sign start)
    (signed sign (s.move start)) c := (pairs_signed (pairing_lawful s) start sign).tracks

end

/-! ## Strings -/

/-- A malformed escape ends where its last character is. -/
theorem escape_invalid {n : Nat} (h : escape c = .ok (.invalid n, d)) : d = c.advance n := by
  have hvalid (chars : List Char) (d : Cursor) : Ends (pure (Escape.valid chars)) d
      (fun e d => ∀ n, e = .invalid n → d = c.advance n) c.Faulty := ends_pure (by rintro _ ⟨⟩)
  have hends : Ends escape c (fun e d => ∀ n, e = .invalid n → d = c.advance n) c.Faulty := by
    refine peek_ends.bind ?_
    rintro _ c ⟨rfl, rfl⟩
    have hdigits (n : Nat) (p : Char → Bool) : Ends (upTo n p) (c.advance 1)
        (fun a d => d = c.advance (1 + a.length)) c.Faulty :=
      ((upTo_ends p n).mono fun a d h => by rw [h.1, Cursor.advance_add]).mono_error
        (Cursor.Faulty.of_reaches (c.reaches_advance 1))
    cases c.rest.head? with
    | none => exact ends_pure (by rintro _ ⟨⟩; exact c.advance_zero.symm)
    | some x =>
      refine (skip_ends 1).bind ?_
      rintro _ _ rfl
      dsimp only
      split
      · exact hvalid _ _
      · split
        · exact (hdigits _ _).bind fun _ _ _ => hvalid _ _
        · split
          · refine (hdigits 2 _).bind ?_
            rintro digits _ rfl
            refine ends_pure fun n hn => ?_
            split at hn
            · next hempty =>
              obtain rfl := Escape.invalid.inj hn
              rw [List.isEmpty_iff.1 hempty, List.length_nil]
            · cases hn
          · split
            · refine (hdigits _ _).bind ?_
              rintro digits _ rfl
              refine ends_pure fun n hn => ?_
              generalize (if x = 'u' then 4 else 8) = width at hn
              split at hn
              · cases hn
              · obtain rfl := Escape.invalid.inj hn
                rfl
            · exact ends_pure (by rintro _ ⟨⟩; rfl)
  exact hends.ok h n rfl

theorem tracks_escape : Tracks s id escape escape c := by
  refine tracks_peek.bind fun next d _ => ?_
  cases next with
  | none => exact tracks_pure rfl
  | some x =>
    refine (tracks_skip 1).bind fun _ _ _ => ?_
    dsimp only [id]
    split
    · exact tracks_pure rfl
    · split
      · exact (tracks_upTo _ _).bind fun _ _ _ => tracks_pure rfl
      · split
        · exact (tracks_upTo _ _).bind fun _ _ _ => tracks_pure rfl
        · split
          · exact (tracks_upTo _ _).bind fun _ _ _ => tracks_pure rfl
          · exact tracks_pure rfl

/-- The end of a body whose places are changed. -/
def Body.move (f : Position → Position) : Body → Body
  | .badEscape latest p => .badEscape latest (f p)
  | b => b

theorem tracks_body (outer close : Char) (rounds : Nat) (latest : List Char) :
    Tracks s (Body.move s.move) (body outer close rounds latest) (body outer close rounds latest)
      c := by
  induction rounds generalizing latest c with
  | zero => exact tracks_pure rfl
  | succ rounds ih =>
    refine tracks_peek.bind fun next d _ => ?_
    cases next with
    | none => exact tracks_pure rfl
    | some x =>
      have hget : Tracks s s.right (get : Scan Cursor) get d := by
        rintro - _ _ ⟨⟩
        exact ⟨.refl d, fun _ => rfl⟩
      refine hget.bind fun b e hb => (tracks_skip 1).bind fun _ g hg => ?_
      obtain ⟨rfl, rfl⟩ := get_ends.ok hb
      obtain rfl := (skip_ends 1 (E := fun _ => True)).ok hg
      split
      · exact tracks_pure rfl
      · split
        · exact tracks_pure rfl
        · split
          · refine tracks_escape.bind fun e g he => ?_
            cases e with
            | valid escaped => exact ih _
            | invalid read =>
              obtain rfl := escape_invalid he
              rw [← Cursor.advance_add, Nat.add_comm, Cursor.advance_add]
              refine tracks_pure_of_leaves fun hs => ?_
              rw [← (hs.of_reaches (Cursor.reaches_advance _ 1)).right_advance]
              rfl
          · split
            · exact ih _
            · exact ih _

theorem tracks_literals (outer : Char) (start : Position) (rounds : Nat) (latest : List Char) :
    Tracks s (Token.move s.move) (literals outer start rounds latest)
      (literals outer (s.move start) rounds latest) c := by
  induction rounds generalizing latest c with
  | zero => exact tracks_pure rfl
  | succ rounds ih =>
    refine tracks_here.bind fun opening _ _ => tracks_peek.bind fun first _ _ =>
      (tracks_skip 1).bind fun _ _ _ => (tracks_body _ _ _ _).bind fun b _ _ => ?_
    cases b with
    | unterminated latest => exact tracks_pure rfl
    | badEscape latest p => exact tracks_pure rfl
    | closed latest =>
      refine (tracks_run _).bind fun _ _ _ => tracks_peek.bind fun next _ _ => ?_
      cases next with
      | none => exact tracks_pure rfl
      | some x =>
        dsimp only [id]
        split
        · exact ih _
        · exact tracks_pure rfl

/-- The rounds on the right are more than those on the left, which makes no difference. -/
theorem tracks_string (outer : Char) (start : Position) (hc : c.rest ≠ []) :
    Tracks s (Token.move s.move) (string outer start) (string outer (s.move start)) c := by
  have hright : string outer (s.move start) (s.right c) =
      literals outer (s.move start) (s.right c).rest.length [] (s.right c) := rfl
  have hle : c.rest.length ≤ (s.right c).rest.length := by simp [Seam.right]
  intro he t d ht
  rw [hright]
  refine tracks_literals outer start _ [] he t d ?_
  rw [literals_congr outer start [] hc hle (Nat.le_refl _)]
  exact ht

theorem tracks_token (mode : Mode) :
    Tracks s (Token.move s.move) (token mode) (token mode) c := by
  refine tracks_here.bind fun start _ hstart => tracks_peek.bind fun next d hnext => ?_
  cases next with
  | none => exact tracks_pure rfl
  | some x =>
    have hd : d.rest ≠ [] := by
      obtain ⟨hhead, rfl⟩ := peek_ends.ok hnext
      intro hnil
      rw [hnil] at hhead
      cases hhead
    dsimp only [id]
    split
    · exact tracks_word start mode
    · split
      · exact tracks_number [] start
      · split
        · exact tracks_string x start hd
        · refine (tracks_skip 1).bind fun _ _ _ => ?_
          split
          · exact tracks_signed start x
          · split
            · refine tracks_peek.bind fun following _ _ => ?_
              dsimp only [id]
              split
              · exact tracks_fraction _ start
              · exact tracks_pure (move_single start s.move x)
            · exact tracks_pure (move_single start s.move x)

/-! ## White space and comments -/

theorem tracks_gap : Tracks s id gap gap c := by
  refine (tracks_run isBlank).bind fun _ _ _ => tracks_peek.bind fun next d hnext => ?_
  dsimp only [id]
  split
  · next hslash =>
    obtain ⟨hhead, rfl⟩ := peek_ends.ok hnext
    exact (tracks_peekSecond (hhead.symm.trans hslash) (.inl rfl)).bind fun _ _ _ => tracks_pure rfl
  · exact tracks_pure rfl

theorem tracks_commentOf (n : Nat) (trim : List Char → List Char) :
    Tracks s (Token.move s.move) (commentOf n trim) (commentOf n trim) c := by
  rintro - _ _ ⟨⟩
  refine ⟨c.reaches_advance n, fun hs => ?_⟩
  have hlast : s.Leaves (c.advance (n - 1)) := by
    refine hs.of_reaches ⟨n - (n - 1), ?_⟩
    rw [← Cursor.advance_add]
    congr 1
    omega
  change Except.ok (_, (s.right c).advance n) = _
  rw [Seam.take_right hs.le_or_nil, ← hs.right_advance, ← hlast.right_advance]
  rfl

theorem run_get (c : Cursor) : (get : Scan Cursor) c = .ok (c, c) := rfl

theorem lineComment_eq {chars : List Char} {e : Cursor} (h : run (· != '\n') c = .ok (chars, e)) :
    lineComment c = commentOf chars.length dropReturns c := by
  rw [lineComment, run_bind (run_get c), run_bind h]
  rfl

theorem blockComment_eq {n : Nat} (h : untilClosed (c.rest.drop 2) = some n) :
    blockComment c = commentOf (n + 2) id c := by
  rw [blockComment, run_bind (run_get c), h]

theorem blockComment_unclosed (h : untilClosed (c.rest.drop 2) = none) :
    blockComment c = (do
      skip c.rest.length
      let _ ← peek
      return .malformed c.rest .unterminatedComment c.position : Scan Token) c := by
  rw [blockComment, run_bind (run_get c), h]

theorem tracks_lineComment : Tracks s (Token.move s.move) lineComment lineComment c := by
  intro he t d ht
  obtain ⟨chars, e, hrun, rfl, rfl⟩ := (run_ends (· != '\n')).exists_ok fun _ => Cursor.not_faulty he
  rw [lineComment_eq hrun] at ht
  obtain ⟨hd, hright⟩ := tracks_commentOf (s := s) _ _ he t d ht
  obtain ⟨-, rfl⟩ := Prod.mk.inj (Except.ok.inj ht)
  refine ⟨hd, fun hs => ?_⟩
  rw [lineComment_eq ((tracks_run _ he _ _ hrun).2 hs)]
  exact hright hs

theorem untilClosed_append {chars : List Char} {n : Nat} (more : List Char)
    (h : untilClosed chars = some n) : untilClosed (chars ++ more) = some n := by
  induction chars using untilClosed.induct generalizing n with
  | case1 rest => exact h
  | case2 x rest hne ih =>
    rw [untilClosed] at h
    · obtain ⟨m, hm, rfl⟩ := Option.map_eq_some_iff.1 h
      rw [List.cons_append, untilClosed, ih hm]
      · rfl
      · intro y hx hy
        rcases rest with _ | ⟨z, rest⟩
        · cases hm
        · obtain ⟨rfl, -⟩ := List.cons.inj hy
          exact hne rest hx rfl
    · exact hne
  | case3 => cases h

theorem tracks_blockComment (hc : 2 ≤ c.rest.length) :
    Tracks s (Token.move s.move) blockComment blockComment c := by
  intro he t d ht
  cases hn : untilClosed (c.rest.drop 2) with
  | some n =>
    have hright : untilClosed ((s.right c).rest.drop 2) = some n := by
      rw [Seam.right, List.drop_append_of_le_length hc]
      exact untilClosed_append s.more hn
    rw [blockComment_eq hn] at ht
    rw [blockComment_eq hright]
    exact tracks_commentOf _ _ he t d ht
  | none =>
    -- all of the text is read, so the right text has nothing more
    rw [blockComment_unclosed hn] at ht
    have hpeek : (c.advance c.rest.length).peek = .ok none := by simp [Cursor.peek, he]
    have hd : d = c.atEnd := by
      rw [run_bind (run_skip _ c), run_bind (run_peek hpeek)] at ht
      exact (Prod.mk.inj (Except.ok.inj ht)).2.symm
    refine ⟨hd ▸ c.reaches_atEnd, fun hs => ?_⟩
    have hnil : d.rest = [] := by rw [hd, Cursor.rest_atEnd]
    have hrest : (s.right c).rest = c.rest := by
      rw [Seam.right, (hs.more_eq_nil hnil).1, List.append_nil]
    rw [blockComment_unclosed (by rw [hrest, hn]), hrest]
    have htracks : Tracks s (Token.move s.move) (do
          skip c.rest.length
          let _ ← peek
          return .malformed c.rest .unterminatedComment c.position : Scan Token) (do
          skip c.rest.length
          let _ ← peek
          return .malformed c.rest .unterminatedComment (s.move c.position) : Scan Token) c :=
      (tracks_skip _).bind fun _ _ _ => tracks_peek.bind fun _ _ _ => tracks_pure rfl
    exact (htracks he t d ht).2 hs

theorem tracks_comment (hc : OpensComment c.rest) :
    Tracks s (Token.move s.move) comment comment c := by
  obtain ⟨x, more, hr, -⟩ := hc
  have hhead : c.rest.head? = some '/' := by rw [hr, List.head?_cons]
  refine (tracks_peekSecond hhead (.inl rfl)).bind fun second d hd => ?_
  obtain ⟨-, rfl⟩ := peekSecond_ends.ok hd
  dsimp only [id]
  split
  · exact tracks_lineComment
  · exact tracks_blockComment (by simp [hr])

end Scan

end ProtoIdl
