import ProtoIdl.Proofs.Text.Respacing
import ProtoIdl.Proofs.Token.Crossing
import ProtoIdl.Proofs.Token.Spelled
import Mathlib.Data.List.TakeWhile
/-!
# Scanning a text that is respaced

Where the old text is scanned, so is the new one. A token other than a string is read where it was read
before (`Scan.pairs_token`). A string is read as before unless a gap is in one of its literals
(`Scan.Tears`, `Scan.respaced_literals`). So what is found in the old text is found in the new one,
unless a comment is met (`Respacing.Aligns.finds`).
-/
namespace ProtoIdl

open Scan

/-! ## Literals -/

namespace Scan

/-- Reads a character of a string. The state is `none` between literals; in a literal it is the quote
that ends the literal, and whether a backslash comes before. -/
def quoteStep : Option (Char × Bool) → Char → Option (Char × Bool)
  | none, x => if isQuote x then some (x, false) else none
  | some (q, true), _ => some (q, false)
  | some (q, false), x =>
    if x = '\\' then some (q, true) else if x = q then none else some (q, false)

/-- Reads characters of a string. -/
def quoted (state : Option (Char × Bool)) (chars : List Char) : Option (Char × Bool) :=
  chars.foldl quoteStep state

theorem quoted_append (state : Option (Char × Bool)) (cs ds : List Char) :
    quoted state (cs ++ ds) = quoted (quoted state cs) ds := List.foldl_append

theorem quoted_blanks {cs : List Char} (h : ∀ x ∈ cs, isBlank x = true) : quoted none cs = none := by
  induction cs with
  | nil => rfl
  | cons x cs ih =>
    have hx : quoteStep none x = none := by
      rw [quoteStep, solid_isQuote x (h x List.mem_cons_self)]
      rfl
    rw [quoted, List.foldl_cons, hx]
    exact ih fun y hy => h y (List.mem_cons_of_mem x hy)

/-- Characters that are neither the quote nor a backslash stay in the literal. -/
theorem quoted_plain {q : Char} {cs : List Char} (h : ∀ x ∈ cs, x ≠ '\\' ∧ x ≠ q) :
    quoted (some (q, false)) cs = some (q, false) := by
  induction cs with
  | nil => rfl
  | cons x cs ih =>
    obtain ⟨hslash, hq⟩ := h x List.mem_cons_self
    have hx : quoteStep (some (q, false)) x = some (q, false) := by
      rw [quoteStep, if_neg hslash, if_neg hq]
    rw [quoted, List.foldl_cons, hx]
    exact ih fun y hy => h y (List.mem_cons_of_mem x hy)

end Scan

namespace Respacing

variable {s p q : Respacing} {file : String} {c c' d e : Cursor}

/-- The cursors of both texts see the same, but for white space. -/
def pairing (s : Respacing) (file : String) : Pairing where
  move := s.move file
  rel := s.Aligns file
  good _ := True

theorem Aligns.peek (h : s.Aligns file c c') : c'.peek = .ok c'.rest.head? :=
  c'.peek_cases.resolve_right fun ⟨_, _, he⟩ => Cursor.not_faulty h.whole_new he

/-- The next character is of a class without white space in both texts or in none. -/
theorem Aligns.any {f : Char → Bool} (h : s.Aligns file c c') (hf : Solid f) :
    c'.rest.head?.any f = c.rest.head?.any f := by
  have hink (o : Option Char) : o.any f = (o.filter (!isBlank ·)).any f := by
    cases o with
    | none => rfl
    | some x =>
      cases hx : isBlank x with
      | true => simp [hx, hf x hx]
      | false => simp [hx]
  rw [hink, h.head, ← hink]

theorem pairing_lawful (s : Respacing) (file : String) : (s.pairing file).Lawful where
  good_of_reaches _ _ := trivial
  good_behind_dot _ _ := trivial
  position h := h.position
  peek h _ := ⟨_, h.peek, h.head⟩
  advance h hx hb _ := by
    obtain ⟨rest, hr⟩ := List.head?_eq_some_iff.1 hx
    exact (h.cons hr hb).2

/-- From the cursor on, in the state given, a gap in front of `e` is in a literal. -/
def Tears (s : Respacing) (file : String) (state : Option (Char × Bool)) (c e : Cursor) : Prop :=
  ∃ p a b q n, s = p ++ .gap a b :: q ∧ c.advance n = cursor Piece.old file p (.gap a b :: q) ∧
    (quoted state (c.rest.take n)).isSome = true ∧ e.rest.length < (c.advance n).rest.length

theorem Tears.of_advance {state : Option (Char × Bool)} {n : Nat}
    (h : s.Tears file (quoted state (c.rest.take n)) (c.advance n) e) : s.Tears file state c e := by
  obtain ⟨p, a, b, q, m, hs, hg, hquoted, hlt⟩ := h
  refine ⟨p, a, b, q, n + m, hs, ?_, ?_, ?_⟩
  · rw [Cursor.advance_add, hg]
  · rw [List.take_add, quoted_append]
    exact hquoted
  · rw [Cursor.advance_add]
    exact hlt

theorem Tears.of_reaches {state : Option (Char × Bool)} (h : s.Tears file state c d)
    (hd : d.Reaches e) : s.Tears file state c e := by
  obtain ⟨p, a, b, q, n, hs, hg, hquoted, hlt⟩ := h
  exact ⟨p, a, b, q, n, hs, hg, hquoted, Nat.lt_of_le_of_lt hd.length_le hlt⟩

end Respacing

namespace Scan

variable {s : Respacing} {file : String} {c c' d e : Cursor}

/-- A valid escape has no white space. -/
theorem pairs_escape {P : Pairing} (hP : P.Lawful) {x : Char} (hx : c.rest.head? = some x)
    (hb : isBlank x = false) : Pairs P id escape escape c := by
  have hoctal : Solid Text.isOctalDigit := solid_of_ascii (by decide)
  refine pairs_known_bind hP hx hb (pairs_skip_bind hP hx hb ?_)
  split
  · exact pairs_pure rfl
  · split
    · exact (pairs_upTo hP _ hoctal).bind hP fun _ _ _ => pairs_pure rfl
    · split
      · exact (pairs_upTo hP _ solid_isHexDigit).bind hP fun _ _ _ => pairs_pure rfl
      · split
        · exact (pairs_upTo hP _ solid_isHexDigit).bind hP fun _ _ _ => pairs_pure rfl
        · exact pairs_pure rfl

/-- An escape does not start with white space. -/
theorem IsEscape.exists_cons {cs : List Char} (h : IsEscape cs) :
    ∃ x ds, cs = x :: ds ∧ isBlank x = false ∧ ds.all Text.isHexDigit = true := by
  obtain ⟨x, ds, n, rfl, hx, hds, -⟩ := h
  refine ⟨x, ds, rfl, Bool.eq_false_iff.2 fun hb => ?_, hds⟩
  rcases isBlank_cases hb with rfl | rfl | rfl | rfl <;> cases hx

/-- An escape leads on in its literal. -/
theorem IsEscape.quoted {q : Char} {cs : List Char} (h : IsEscape cs) (hq : isQuote q = true) :
    Scan.quoted (some (q, true)) cs = some (q, false) := by
  obtain ⟨x, ds, rfl, -, hds⟩ := h.exists_cons
  have hstep : quoteStep (some (q, true)) x = some (q, false) := rfl
  rw [Scan.quoted, List.foldl_cons, hstep]
  refine quoted_plain fun y hy => ?_
  obtain ⟨hne, hslash, -⟩ := isHexDigit_ne hq (List.all_eq_true.1 hds y hy)
  exact ⟨hslash, hne⟩

/-! ### The body of a literal -/

section
variable {outer close : Char} {rounds rounds' : Nat} {latest latest' : List Char}

/-- White space in a literal is read over. -/
theorem reaches_of_blank {x : Char} {rest : List Char} (hc : c.rest = x :: rest)
    (hx : isBlank x = true) (hclose : isQuote close = true)
    (hb : body outer close rounds latest c = .ok (.closed latest', e)) : (c.advance 1).Reaches e := by
  cases rounds with
  | zero => cases hb
  | succ rounds =>
    cases ((body_eq_closed hc).1 hb).2 with
    | closes h =>
      rw [← h, solid_isQuote x hx] at hclose
      cases hclose
    | escapes _ h => exact absurd h (ne_of_blank hx rfl)
    | plain _ _ hb => exact ((forward_body outer close rounds _ _ (.refl _)).ok hb).1

/-- The literal that is closed in front of `e` is read as before, and closed there, unless a gap is in
it. -/
def Closes (s : Respacing) (file : String) (state : Option (Char × Bool)) (c e : Cursor)
    (read : Except LexicalError (Body × Cursor)) (latest : List Char) : Prop :=
  s.Tears file state c e ∨ ∃ e' n, read = .ok (.closed latest, e') ∧ s.Aligns file e e' ∧
    e = c.advance n ∧ quoted state (c.rest.take n) = none

/-- It is enough to know how it is closed from a place further on. -/
theorem Closes.of_advance {state : Option (Char × Bool)} {n : Nat}
    {read read' : Except LexicalError (Body × Cursor)}
    (h : Closes s file (quoted state (c.rest.take n)) (c.advance n) e read' latest)
    (hread : ∀ e', read' = .ok (.closed latest, e') → read = .ok (.closed latest, e')) :
    Closes s file state c e read latest := by
  refine h.imp Respacing.Tears.of_advance ?_
  rintro ⟨e', m, hread', halign, rfl, hquoted⟩
  refine ⟨e', n + m, hread e' hread', halign, (c.advance_add n m).symm, ?_⟩
  rw [List.take_add, quoted_append]
  exact hquoted

/-- A valid escape is read as before. -/
theorem respaced_escape {cs : List Char} (hclose : isQuote close = true) (h : s.Aligns file c c')
    (hesc : escape c = .ok (.valid cs, d)) : ∃ d', escape c' = .ok (.valid cs, d') ∧
      s.Aligns file d d' ∧ d'.rest.length ≤ c'.rest.length ∧ d = c.advance cs.length ∧
      quoted (some (close, true)) (c.rest.take cs.length) = some (close, false) := by
  obtain ⟨hescape, hadvance, hread⟩ := (escape_covers c).ok hesc cs rfl
  obtain ⟨y, ds, rfl, hy, -⟩ := hescape.exists_cons
  have hhead : c.rest.head? = some y := by rw [hread]; rfl
  obtain ⟨d', hesc', hd⟩ :=
    (pairs_escape (s.pairing_lawful file) hhead hy _ _ hesc).2 _ h trivial
  refine ⟨d', hesc', hd, ((forward_escape c' (.refl _)).ok hesc').1.length_le, hadvance, ?_⟩
  rw [hread, List.take_left, hescape.quoted hclose]

/-- A literal that is read over a gap is torn. -/
theorem tears_of_gap {p q : Respacing} {a b : Blanks} (hs : s = p ++ .gap a b :: q)
    (hc : c = Respacing.cursor Piece.old file p (.gap a b :: q)) (hclose : isQuote close = true)
    (hb : body outer close rounds latest c = .ok (.closed latest', e)) :
    s.Tears file (some (close, false)) c e := by
  obtain ⟨x, rest, hr⟩ := List.exists_cons_of_ne_nil a.ne_nil
  have hrest : c.rest = x :: (rest ++ Respacing.old q) := by
    rw [hc, ← List.cons_append, ← hr]
    rfl
  have hle := (reaches_of_blank hrest (a.blank x (by simp [hr])) hclose hb).length_le
  refine ⟨p, a, b, q, 0, hs, by rw [Cursor.advance_zero, hc], rfl, ?_⟩
  rw [Cursor.rest_advance, hrest] at hle
  rw [Cursor.advance_zero, hrest, List.length_cons]
  exact Nat.lt_succ_of_le hle

/-- The body of a literal is read as before, unless a gap is in it. -/
theorem respaced_body (hclose : isQuote close = true) (h : s.Aligns file c c')
    (hrounds : c'.rest.length < rounds')
    (hb : body outer close rounds latest c = .ok (.closed latest', e)) :
    Closes s file (some (close, false)) c e (body outer close rounds' latest c') latest' := by
  induction rounds generalizing c c' latest rounds' with
  | zero => cases hb
  | succ rounds ih =>
    obtain ⟨rounds', rfl⟩ : ∃ k, rounds' = k + 1 := ⟨rounds' - 1, by omega⟩
    obtain ⟨p, q, hs, hc, hc'⟩ := h
    rcases q with _ | ⟨x | ⟨a, b⟩, q⟩
    · have hpeek : c.peek = .ok none := by rw [hc]; rfl
      rw [body, run_bind (run_peek hpeek)] at hb
      cases hb
    · have hr : c.rest = x :: Respacing.old q := by rw [hc]; rfl
      have hr' : c'.rest = x :: Respacing.new q := by rw [hc']; rfl
      have hnext : s.Aligns file (c.advance 1) (c'.advance 1) := by
        rw [hc, hc']
        exact Respacing.Aligns.piece hs
      have hlen : (c'.advance 1).rest.length < rounds' := by
        rw [hr', List.length_cons] at hrounds
        rw [Cursor.rest_advance, hr']
        exact Nat.lt_of_succ_lt_succ hrounds
      have hstep : quoted (some (close, false)) (c.rest.take 1) =
          quoteStep (some (close, false)) x := by rw [hr]; rfl
      obtain ⟨hnewline, hgoes⟩ := (body_eq_closed hr).1 hb
      have hread (e' : Cursor) (h : GoesOn outer close rounds' latest x c' latest' e') :=
        (body_eq_closed hr').2 ⟨hnewline, h⟩
      cases hgoes with
      | closes hx hlatest he =>
        have hslash : x ≠ '\\' := by
          rintro rfl
          rw [← hx] at hclose
          cases hclose
        refine .inr ⟨_, 1, hread _ (.closes hx hlatest rfl), he ▸ hnext, he, ?_⟩
        rw [hstep, quoteStep, if_neg hslash, if_pos hx]
      | @escapes cs d hx hslash hescape hb =>
        obtain ⟨d', hescape', hd, hle, hadvance, hquoted⟩ := respaced_escape hclose hnext hescape
        refine Closes.of_advance (n := 1) (Closes.of_advance (n := cs.length) ?_ fun _ h => h)
          fun e' h => hread e' (.escapes hx hslash hescape' h)
        rw [hstep, quoteStep, if_pos hslash, hquoted, ← hadvance]
        exact ih hd (Nat.lt_of_le_of_lt hle hlen) hb
      | plain hx hslash hb =>
        refine Closes.of_advance (n := 1) ?_ fun e' h => hread e' (.plain hx hslash h)
        rw [hstep, quoteStep, if_neg hslash, if_neg hx]
        exact ih hnext hlen hb
    · exact .inl (tears_of_gap hs hc hclose hb)

/-! ### Strings -/

/-- Behind a literal that is closed another one follows, or the string is complete. -/
theorem literals_of_closed {x : Char} {rest : List Char} {start : Position} (hc : c.rest = x :: rest)
    (hb : body outer x (rounds + 1) latest (c.advance 1) = .ok (.closed latest', d))
    (he : d.ending = none) : literals outer start (rounds + 1) latest c =
      if (d.advance (d.rest.takeWhile isBlank).length).rest.head?.any isQuote = true then
        literals outer start rounds latest' (d.advance (d.rest.takeWhile isBlank).length)
      else .ok (quotedToken outer latest' start, d.advance (d.rest.takeWhile isBlank).length) := by
  obtain ⟨_, _, hrun, rfl, rfl⟩ := (run_ends isBlank).exists_ok fun _ => Cursor.not_faulty he
  have hpeek := peek_of_whole (c := d.advance (d.rest.takeWhile isBlank).length) he
  rw [literals, run_bind (run_here c), run_bind (run_peek (Cursor.peek_of_rest hc)),
    run_bind (run_skip 1 c), Option.getD_some, run_bind hb]
  dsimp only
  rw [run_bind hrun, run_bind (run_peek hpeek)]
  cases (d.advance (d.rest.takeWhile isBlank).length).rest.head? with
  | none => rfl
  | some y =>
    dsimp only [Option.any_some]
    split
    · rfl
    · rfl

/-- A string that is complete has its first literal closed. -/
theorem closed_of_literals {x : Char} {rest : List Char} {start : Position} {t : Token}
    (hc : c.rest = x :: rest) (ht : literals outer start (rounds + 1) latest c = .ok (t, e))
    (hk : t.kind = .stringLit) :
    ∃ latest' d, body outer x (rounds + 1) latest (c.advance 1) = .ok (.closed latest', d) := by
  rw [literals, run_bind (run_here c), run_bind (run_peek (Cursor.peek_of_rest hc)),
    run_bind (run_skip 1 c), Option.getD_some] at ht
  cases hb : body outer x (rounds + 1) latest (c.advance 1) with
  | error err =>
    rw [run_bind_error hb] at ht
    cases ht
  | ok a =>
    obtain ⟨b, d⟩ := a
    rw [run_bind hb] at ht
    cases b with
    | closed latest => exact ⟨latest, d, rfl⟩
    | unterminated latest =>
      cases ht
      cases hk
    | badEscape latest p =>
      cases ht
      cases hk

/-- Behind a character there are fewer of them. -/
theorem length_down {k : Nat} (hk : c.rest.length ≤ k + 1) (hne : c.rest ≠ [])
    (hreach : (c.advance 1).Reaches d) (i : Nat) : (d.advance i).rest.length ≤ k := by
  have hle := (hreach.trans (d.reaches_advance i)).length_le
  have hpos := List.length_pos_iff.2 hne
  rw [Cursor.rest_advance 1, List.length_drop] at hle
  omega

/-- A string is read as before, unless a gap is in one of its literals. -/
theorem respaced_literals {b : Cursor} {x : Char} {rest : List Char} {t : Token}
    (hbc : b.Reaches c) (h : s.Aligns file c c') (hc : c.rest = x :: rest) (hx : isQuote x = true)
    (hr : c.rest.length ≤ rounds) (hr' : c'.rest.length ≤ rounds')
    (ht : literals outer b.position rounds latest c = .ok (t, e)) (hk : t.kind = .stringLit) :
    s.Tears file none c e ∨ ∃ e', literals outer (s.move file b.position) rounds' latest c' =
      .ok (t.move (s.move file), e') ∧ s.Aligns file e e' := by
  induction rounds generalizing c c' latest rounds' x rest with
  | zero =>
    rw [hc] at hr
    cases hr
  | succ rounds ih =>
    have hxb : isBlank x = false :=
      Bool.eq_false_iff.2 fun hb => by rw [solid_isQuote x hb] at hx; cases hx
    obtain ⟨hhead', hnext⟩ := h.cons hc hxb
    obtain ⟨rest', hc'⟩ := List.head?_eq_some_iff.1 hhead'
    obtain ⟨rounds', rfl⟩ : ∃ k, rounds' = k + 1 := by
      rw [hc', List.length_cons] at hr'
      exact ⟨rounds' - 1, by omega⟩
    have hlen : (c'.advance 1).rest.length < rounds' + 1 := by
      rw [Cursor.rest_advance, hc', List.drop_one, List.tail_cons]
      rwa [hc', List.length_cons] at hr'
    have hopen : quoted none (c.rest.take 1) = some (x, false) := by
      rw [hc]
      exact if_pos hx
    obtain ⟨latest₁, d, hb⟩ := closed_of_literals hc ht hk
    have hcd : (c.advance 1).Reaches d :=
      ((forward_body outer x (rounds + 1) latest (c.advance 1) (.refl _)).ok hb).1
    rw [literals_of_closed hc hb (hcd.ending_eq.trans hnext.whole)] at ht
    generalize hn : (d.rest.takeWhile isBlank).length = n at ht
    have hbd : b.Reaches (d.advance n) :=
      hbc.trans ((c.reaches_advance 1).trans (hcd.trans (d.reaches_advance n)))
    rcases respaced_body hx hnext hlen hb with htears | ⟨d', m, hbody, hd, rfl, hquoted⟩
    · refine .inl (Respacing.Tears.of_advance (n := 1) ?_)
      rw [hopen]
      refine htears.of_reaches ((d.reaches_advance n).trans ?_)
      split at ht
      · exact ((forward_literals outer rounds latest₁ (d.advance n) hbd).ok ht).1
      · cases ht
        exact .refl _
    · rw [literals_of_closed hc' hbody hd.whole_new]
      have hfront := hd.blanks
      rw [hn] at hfront
      generalize (d'.rest.takeWhile isBlank).length = n' at hfront ⊢
      have hblanks : quoted none (((c.advance 1).advance m).rest.take n) = none := by
        rw [← hn, ← List.prefix_iff_eq_take.1 (List.takeWhile_prefix isBlank)]
        exact quoted_blanks fun y hy => List.mem_takeWhile_imp hy
      rw [hfront.any solid_isQuote]
      split at ht
      · next hquote =>
        rw [if_pos hquote]
        obtain ⟨y, hy, hyq⟩ := Option.any_eq_true _ _ |>.1 hquote
        obtain ⟨more, hmore⟩ := List.head?_eq_some_iff.1 hy
        have hcd' : (c'.advance 1).Reaches d' :=
          ((forward_body outer x (rounds' + 1) latest (c'.advance 1) (.refl _)).ok hbody).1
        refine (ih hbd hfront hmore hyq (length_down hr (hc ▸ List.cons_ne_nil _ _) hcd n)
          (length_down hr' (hc' ▸ List.cons_ne_nil _ _) hcd' n') ht).imp_left fun htears => ?_
        refine Respacing.Tears.of_advance (n := 1) ?_
        rw [hopen]
        refine Respacing.Tears.of_advance (n := m) ?_
        rw [hquoted]
        refine Respacing.Tears.of_advance (n := n) ?_
        rwa [hblanks]
      · next hquote =>
        rw [if_neg hquote]
        cases ht
        exact .inr ⟨_, rfl, hfront⟩

/-- What is read from a quote on where strings are wanted. -/
theorem respaced_string {x : Char} {rest : List Char} {t : Token} (h : s.Aligns file c c')
    (hc : c.rest = x :: rest) (hx : isQuote x = true) (ht : string x c.position c = .ok (t, e)) :
    t.kind = .illegal ∨ t.kind = .stringLit ∧ s.Tears file none c e ∨
      ∃ e', string x (s.move file c.position) c' = .ok (t.move (s.move file), e') ∧
        s.Aligns file e e' := by
  rcases (spells_literals_kind x c.rest.length [] c).ok ht with hk | hk
  · rcases respaced_literals (.refl c) h hc hx (Nat.le_refl _) (Nat.le_refl _) ht hk with ht | ht
    · exact .inr (.inl ⟨hk, ht⟩)
    · exact .inr (.inr ht)
  · exact .inl hk

end

/-! ## Tokens -/

theorem opensComment_iff {rest : List Char} : OpensComment rest ↔
    rest.head?.any (· == '/') = true ∧
      (rest.drop 1).head?.any (fun x => x == '/' || x == '*') = true := by
  rcases rest with _ | ⟨x, _ | ⟨y, more⟩⟩ <;> simp [OpensComment]

/-- Where white space was passed over none is left. -/
theorem head_of_gap {b : Bool} (hg : gap c = .ok (b, d)) :
    ∀ x ∈ d.rest.head?, isBlank x = false := by
  obtain ⟨rfl, -⟩ := (gap_ends c).ok hg
  intro x hx
  obtain ⟨more, hr⟩ := List.head?_eq_some_iff.1 hx
  have hnil := takeWhile_drop_takeWhile isBlank c.rest
  rw [Cursor.rest_advance] at hr
  rw [hr, List.takeWhile_cons] at hnil
  cases hb : isBlank x with
  | false => rfl
  | true =>
    rw [hb, if_pos rfl] at hnil
    cases hnil

end Scan

/-- Where no comment comes first, the next token is read behind the white space. -/
theorem Cursor.Finds.of_clear {m : Mode} {c a d e : Cursor} {t : Token} {ts : List Token}
    (hg : Scan.gap c = .ok (false, a)) (h : c.Finds m t ts d e) :
    ts = [] ∧ d = a ∧ Scan.token m d = .ok (t, e) := by
  have hleads : c.Leads .clear [] a a := .clear hg
  cases h with
  | token hl ht =>
    obtain ⟨-, rfl, rfl, -⟩ := hl.unique hleads
    exact ⟨rfl, rfl, ht⟩
  | unclosed hl => cases (hl.unique hleads).1

namespace Respacing

variable {s : Respacing} {file : String} {c c' d e : Cursor} {m : Mode} {t : Token} {ts : List Token}

theorem Aligns.opensComment (h : s.Aligns file c c') :
    OpensComment c'.rest ↔ OpensComment c.rest := by
  have hslash : Solid (· == '/') := solid_of_ascii (by decide)
  have hsecond : Solid fun x => x == '/' || x == '*' := solid_of_ascii (by decide)
  rw [opensComment_iff, opensComment_iff, h.any hslash]
  refine and_congr_right fun hx => ?_
  obtain ⟨x, hx, heq⟩ := Option.any_eq_true _ _ |>.1 hx
  obtain rfl := beq_iff_eq.1 heq
  obtain ⟨rest, hc⟩ := List.head?_eq_some_iff.1 hx
  exact Bool.eq_iff_iff.1 ((h.cons hc rfl).2.any hsecond)

/-- What stands behind white space stands behind it in the new text. -/
theorem Aligns.gap {b : Bool} (h : s.Aligns file c c') (hg : Scan.gap c = .ok (b, d)) :
    ∃ d', Scan.gap c' = .ok (b, d') ∧ s.Aligns file d d' := by
  obtain ⟨rfl, hb⟩ := (gap_ends c).ok hg
  obtain ⟨b', _, hg', rfl, hb'⟩ := (gap_ends c').exists_ok fun _ => Cursor.not_faulty h.whole_new
  obtain rfl : b' = b := Bool.eq_iff_iff.2 ((hb'.trans h.blanks.opensComment).trans hb.symm)
  exact ⟨_, hg', h.blanks⟩

/-- The token behind white space is read as before; or it is a string, or would be one. -/
theorem Aligns.token (h : s.Aligns file c c') (hc : ∀ x ∈ c.rest.head?, isBlank x = false)
    (hc' : ∀ x ∈ c'.rest.head?, isBlank x = false) (ht : Scan.token m c = .ok (t, e)) :
    (∃ e', Scan.token m c' = .ok (t.move (s.move file), e') ∧ s.Aligns file e e') ∨
      m.strings = true ∧ c.rest.head?.any isQuote = true ∧
        (t.kind = .illegal ∨ t.kind = .stringLit ∧ s.Tears file none c e) := by
  rcases hr : c.rest with _ | ⟨x, rest⟩
  · obtain ⟨rfl, rfl⟩ := (token_ends_of_nil m hr).ok ht
    have hnil : c'.rest = [] := by
      rcases hr' : c'.rest with _ | ⟨y, rest'⟩
      · rfl
      · have hhead := h.head
        rw [hr, hr', List.head?_cons, List.head?_nil, Option.filter_some,
          hc' y (by rw [hr']; rfl)] at hhead
        cases hhead
    refine .inl ⟨c', ?_, h⟩
    rw [token_of_nil m (h.peek.trans (by rw [hnil]; rfl)), h.position]
    rfl
  have hx : isBlank x = false := hc x (by rw [hr]; rfl)
  cases hq : isQuote x && m.strings with
  | false =>
    have hhead : c.rest.head? = some x := by rw [hr]; rfl
    exact .inl ((pairs_token (s.pairing_lawful file) m hhead hx hq _ _ ht).2 c' h trivial)
  | true =>
    obtain ⟨hquote, hs⟩ := Bool.and_eq_true _ _ ▸ hq
    obtain ⟨rest', hr'⟩ := List.head?_eq_some_iff.1 (h.cons hr hx).1
    rw [token_of_quote m hr hquote hs] at ht
    rw [token_of_quote m hr' hquote hs, h.position]
    rcases respaced_string h hr hquote ht with hk | hk | hread
    · exact .inr ⟨hs, hquote, .inl hk⟩
    · exact .inr ⟨hs, hquote, .inr hk⟩
    · exact .inl hread

/-- The next token is found as before where no comment comes first; or it is a string, or would be one. -/
theorem Aligns.finds {a : Cursor} (h : s.Aligns file c c') (hg : Scan.gap c = .ok (false, a))
    (hf : c.Finds m t ts d e) : ts = [] ∧ ∃ d', Scan.gap c' = .ok (false, d') ∧ s.Aligns file d d' ∧
      ((∃ e', c'.Finds m (t.move (s.move file)) [] d' e' ∧ s.Aligns file e e') ∨
        m.strings = true ∧ d.rest.head?.any isQuote = true ∧
          (t.kind = .illegal ∨ t.kind = .stringLit ∧ s.Tears file none d e)) := by
  obtain ⟨rfl, rfl, ht⟩ := hf.of_clear hg
  obtain ⟨d', hg', hd⟩ := h.gap hg
  refine ⟨rfl, d', hg', hd, ?_⟩
  refine (hd.token (head_of_gap hg) (head_of_gap hg') ht).imp_left ?_
  rintro ⟨e', ht', he⟩
  exact ⟨e', .token (.clear hg') ht', he⟩

end Respacing

end ProtoIdl
