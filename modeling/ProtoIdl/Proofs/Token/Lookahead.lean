import ProtoIdl.Proofs.Token.Stream
import ProtoIdl.Proofs.Token.Words
/-!
# The next token under any mode

`Cursor.Gets` is `Cursor.Finds` for all modes, also for those that want comments as tokens. Only the
place and the mode decide what comes next (`Cursor.Gets.unique`), and from where a token was put back
the same comes next as before (`Cursor.Gets.again`). `TokenStream.after` is the stream behind a token:
a token that is found is scanned (`TokenStream.scan_of_finds`, on any text), and on a text without
ill-formed octets one is found under every mode (`TokenStream.scan_gets`).
-/
namespace ProtoIdl

/-! ## The next token under any mode -/

/-- From `c` on the next token under a mode is `t`: it was read from `d` to `e`, and the comments `ts`
were queued on the way. A mode that wants comments queues none. -/
inductive Cursor.Gets (m : Mode) (c : Cursor) (t : Token) (ts : List Token) (d e : Cursor) : Prop
  | found (h : c.Finds m t ts d e) (hts : m.comments = true → ts = [])
  | comment (hm : m.comments = true) (hts : ts = []) (hg : Scan.gap c = .ok (true, d))
      (ht : Scan.comment d = .ok (t, e)) (hk : t.kind ≠ .illegal)

namespace Cursor

variable {m m' : Mode} {b : Bool} {c c' d e d' e' : Cursor} {l : Source.Lead} {t t' : Token}
  {ts ts' : List Token}

/-- What comes next depends on what is behind the white space only. -/
theorem Leads.of_gap_eq (h : c.Leads l ts d e) (hg : Scan.gap c' = Scan.gap c) :
    c'.Leads l ts d e := by
  cases h with
  | clear hg' => exact .clear (hg.trans hg')
  | unclosed hg' ht hk => exact .unclosed (hg.trans hg') ht hk
  | comment hg' ht hk hl => exact .comment (hg.trans hg') ht hk hl

/-- White space does not change what comes next. -/
theorem Leads.of_gap (hg : Scan.gap c = .ok (b, d)) (he : c.ending = none)
    (h : d.Leads l ts d' e') : c.Leads l ts d' e' :=
  h.of_gap_eq (hg.trans (Scan.gap_again hg he).symm)

theorem Finds.of_gap (hg : Scan.gap c = .ok (b, d)) (he : c.ending = none)
    (h : d.Finds m t ts d' e') : c.Finds m t ts d' e' := by
  cases h with
  | token hl ht => exact .token (hl.of_gap hg he) ht
  | unclosed hl => exact .unclosed (hl.of_gap hg he)

/-- Where a token was found, nothing is left to pass over. -/
theorem Finds.clear_of_mark (he : c.ending = none) (h : c.Finds m t ts d e)
    (h' : d.Leads .clear ts' d' d') : d' = d ∧ c.Leads .clear ts d d := by
  cases h with
  | token hl ht =>
    obtain ⟨-, -, rfl, -⟩ := (hl.again he).unique h'
    exact ⟨rfl, hl⟩
  | unclosed hl => cases ((hl.again he).unique h').1

/-- A token found with no comment in front of it is behind white space only. No comment is there,
unless it is the token because it is not closed. -/
theorem Finds.gap_of_nil (h : c.Finds m t [] d e) : ∃ b, Scan.gap c = .ok (b, d) ∧
    (b = true → ∃ u e', Scan.comment d = .ok (u, e') ∧ u.kind = .illegal) := by
  cases h with
  | token hl ht =>
    cases hl with
    | clear hg => exact ⟨false, hg, nofun⟩
  | unclosed hl =>
    cases hl with
    | unclosed hg ht hk => exact ⟨true, hg, fun _ => ⟨t, e, ht, hk⟩⟩

namespace Gets

theorem passes (h : c.Gets m t ts d e) : Passes c ts d := by
  cases h with
  | found h hts => exact h.passes
  | comment hm hts hg ht hk =>
    obtain ⟨rfl, -⟩ := (Scan.gap_ends c).ok hg
    exact hts ▸ .nil (reaches_advance _ _)

theorem reaches (h : c.Gets m t ts d e) : d.Reaches e := by
  cases h with
  | found h hts => exact h.found.reaches
  | comment hm hts hg ht hk =>
    have hopen := ((Scan.gap_ends c).ok hg).2.1 rfl
    rcases Scan.comment_ok hopen ht with ⟨-, h⟩ | ⟨-, rfl⟩
    · exact h.reaches
    · exact d.reaches_atEnd

/-- Where a comment comes next, it is no token that is found. -/
theorem not_found (hg : Scan.gap c = .ok (true, d)) (ht : Scan.comment d = .ok (t, e))
    (hk : t.kind ≠ .illegal) : ¬ c.Finds m t' [] d' e' := by
  intro h
  obtain ⟨b, hg', hb⟩ := h.gap_of_nil
  rw [hg] at hg'
  obtain ⟨rfl, rfl⟩ := Prod.mk.inj (Except.ok.inj hg')
  obtain ⟨u, e'', hu, hku⟩ := hb rfl
  rw [ht] at hu
  obtain ⟨rfl, -⟩ := Prod.mk.inj (Except.ok.inj hu)
  exact hk hku

/-- A token was read where it stands, unless a comment stands there. -/
theorem read (h : c.Gets m t ts d e) : Scan.token m d = .ok (t, e) ∨ Scan.OpensComment d.rest := by
  cases h with
  | found h hts =>
    cases h with
    | token hl ht => exact .inl ht
    | unclosed hl => exact .inr hl.unclosed_eq.1
  | comment hm hts hg ht hk => exact .inr (((Scan.gap_ends c).ok hg).2.1 rfl)

/-- Only the place and the mode decide what comes next. -/
theorem unique (h : c.Gets m t ts d e) (h' : c.Gets m t' ts' d' e') :
    t = t' ∧ ts = ts' ∧ d = d' ∧ e = e' := by
  cases h with
  | found h hts =>
    cases h' with
    | found h' hts' => exact h.unique h'
    | comment hm hts' hg ht hk =>
      obtain rfl := hts hm
      exact absurd h (not_found hg ht hk)
  | comment hm hts hg ht hk =>
    cases h' with
    | found h' hts' =>
      obtain rfl := hts' hm
      exact absurd h' (not_found hg ht hk)
    | comment hm' hts' hg' ht' hk' =>
      rw [hg] at hg'
      obtain ⟨-, rfl⟩ := Prod.mk.inj (Except.ok.inj hg')
      rw [ht] at ht'
      obtain ⟨rfl, rfl⟩ := Prod.mk.inj (Except.ok.inj ht')
      exact ⟨rfl, hts.trans hts'.symm, rfl, rfl⟩

/-- What comes next is the same from where a token was put back. The comments passed over in front of
it are those passed over before. -/
theorem again (he : c.ending = none) (hm : m'.comments = true → m.comments = true)
    (h : c.Gets m t ts d e) (h' : d.Gets m' t' ts' d' e') : c.Gets m' t' (ts ++ ts') d' e' := by
  cases h with
  | found h hts =>
    cases h' with
    | found h' hts' =>
      obtain ⟨rfl, rfl, h'⟩ := h.again he h'
      exact .found (by rwa [List.append_nil]) fun hm' => by rw [hts (hm hm'), List.append_nil]
    | comment hm' hts' hg ht hk => exact absurd (h.at_mark he) (not_found hg ht hk)
  | comment hmc hts hg ht hk =>
    subst hts
    cases h' with
    | found h' hts' => exact .found (h'.of_gap hg he) hts'
    | comment hm' hts' hg' ht' hk' =>
      rw [Scan.gap_again hg he] at hg'
      obtain ⟨-, rfl⟩ := Prod.mk.inj (Except.ok.inj hg')
      exact .comment hm' hts' hg ht' hk'

end Gets

end Cursor

/-! ## Scanning it -/

/-- Nothing is passed over where a character stands that is neither blank nor a slash. -/
theorem Scan.gap_of_bare {c : Cursor} (he : c.ending = none)
    (hb : ∀ x ∈ c.rest.head?, isBlank x = false ∧ x ≠ '/') : gap c = .ok (false, c) := by
  obtain ⟨b, d, hg, hd, hopen⟩ := (gap_ends c).exists_ok fun _ => Cursor.not_faulty he
  have htake : c.rest.takeWhile isBlank = [] := by
    cases hc : c.rest with
    | nil => rfl
    | cons x rest => rw [List.takeWhile_cons, (hb x (by rw [hc]; rfl)).1]; rfl
  obtain rfl : d = c := by rw [hd, htake, List.length_nil, Cursor.advance_zero]
  cases b with
  | false => exact hg
  | true =>
    obtain ⟨x, more, hslash, -⟩ := hopen.1 rfl
    exact absurd rfl (hb '/' (by rw [hslash]; rfl)).2

/-- A comment behind white space is passed over. -/
theorem Scan.gap_comment {a b c : Cursor} {t : Token} (hg : gap a = .ok (true, b))
    (ht : comment b = .ok (t, c)) (hk : t.kind ≠ .illegal) :
    a.Reaches b ∧ t.Comments b c ∧ c.rest.length < a.rest.length := by
  obtain ⟨hb, hopen⟩ := (gap_ends a).ok hg
  obtain ⟨-, hc⟩ := (comment_ok (hopen.1 rfl) ht).resolve_right fun h => hk (by rw [h.1]; rfl)
  have hab : a.Reaches b := hb ▸ a.reaches_advance _
  refine ⟨hab, hc, ?_⟩
  have hle := hab.length_le
  obtain ⟨n, text, h2, hn, rfl, -⟩ := hc
  rw [Cursor.rest_advance, List.length_drop]
  omega

/-- What stands in front of a token is passed over as the place has it. -/
theorem Source.lead_of_leads {mode : Mode} (hm : mode.comments = false) {l : Lead} {ts : List Token}
    {c d e : Cursor} (h : c.Leads l ts d e) (rounds : Nat) (passed : List Token) (s : Source)
    (hs : s.current = c) (hr : c.rest.length < rounds) :
    ∃ source, s.lead mode rounds passed = (l, passed ++ ts, source) ∧ source.current = e ∧
      ∀ t, l = .token t → source = { current := e, previous := e, marked := d } := by
  induction h generalizing rounds passed s with
  | @clear c d hg =>
    obtain ⟨rounds, rfl⟩ : ∃ n, rounds = n + 1 := ⟨rounds - 1, by omega⟩
    refine ⟨s.moveTo d, ?_, rfl, by rintro t ⟨⟩⟩
    rw [lead, take, hs, hg, List.append_nil]
  | @unclosed c d e t hg ht hk =>
    obtain ⟨rounds, rfl⟩ : ∃ n, rounds = n + 1 := ⟨rounds - 1, by omega⟩
    refine ⟨(s.moveTo d).mark.moveTo e, ?_, rfl, fun _ _ => rfl⟩
    rw [lead, take, hs, hg]
    dsimp only
    rw [take, current_mark, current_moveTo, ht]
    dsimp only
    rw [hk, beq_self_eq_true, Bool.or_true, if_pos rfl, List.append_nil]
  | @comment a b c d e t l ts hg ht hk hl ih =>
    obtain ⟨rounds, rfl⟩ : ∃ n, rounds = n + 1 := ⟨rounds - 1, by omega⟩
    have hlt := (Scan.gap_comment hg ht hk).2.2
    obtain ⟨source, hlead, hcurrent, htoken⟩ :=
      ih rounds (passed ++ [t]) ((s.moveTo b).mark.moveTo c) rfl (by omega)
    refine ⟨source, ?_, hcurrent, htoken⟩
    rw [lead, take, hs, hg]
    dsimp only
    rw [take, current_mark, current_moveTo, ht]
    dsimp only
    rw [hm, Bool.false_or, if_neg (by simpa using hk), hlead, List.append_assoc,
      List.singleton_append]

/-- Where comments are wanted the first one is a token. -/
theorem Source.lead_wanted {mode : Mode} (hm : mode.comments = true) (rounds : Nat)
    (passed : List Token) (s : Source) (he : s.current.ending = none) :
    (∃ d, Scan.gap s.current = .ok (false, d) ∧
        s.lead mode (rounds + 1) passed = (.clear, passed, s.moveTo d)) ∨
      ∃ d t e, Scan.gap s.current = .ok (true, d) ∧ Scan.comment d = .ok (t, e) ∧
        s.lead mode (rounds + 1) passed = (.token t, passed, (s.moveTo d).mark.moveTo e) := by
  obtain ⟨b, d, hg, hd, hb⟩ := (Scan.gap_ends s.current).exists_ok fun _ => Cursor.not_faulty he
  have hsd : s.current.Reaches d := hd ▸ s.current.reaches_advance _
  rw [lead, take, hg]
  cases b with
  | false => exact .inl ⟨d, rfl, rfl⟩
  | true =>
    obtain ⟨t, e, ht, -⟩ := (Scan.comment_ends (hb.1 rfl)).exists_ok
      fun _ => Cursor.not_faulty (hsd.ending_eq.trans he)
    refine .inr ⟨d, t, e, rfl, ht, ?_⟩
    dsimp only
    rw [take, current_mark, current_moveTo, ht]
    dsimp only
    rw [hm, Bool.true_or, if_pos rfl]

namespace TokenStream

/-- The stream behind a token that was read from `d` to `e` behind the comments `ts`. -/
def after (s : TokenStream) (t : Token) (ts : List Token) (d e : Cursor) : TokenStream :=
  { s with source := { current := e, previous := e, marked := d }, canUnscan := true,
           pending := s.pending ++ ts, handedOut := t :: s.handedOut }

/-- The next token is scanned, whatever is at the end of the text. -/
theorem scan_of_finds {mode : Mode} (hm : mode.comments = false) (s : TokenStream) {t : Token}
    {ts : List Token} {d e : Cursor} (h : s.source.current.Finds mode t ts d e)
    (hr : s.source.current.rest.length < s.rounds) : s.scan mode = (t, s.after t ts d e) := by
  cases h with
  | token hl ht =>
    obtain ⟨source, hlead, rfl, -⟩ := Source.lead_of_leads hm hl s.rounds [] s.source rfl hr
    rw [scan, hlead]
    dsimp only
    rw [Source.take, Source.current_mark, ht, List.nil_append]
    rfl
  | unclosed hl =>
    obtain ⟨source, hlead, -, hsource⟩ := Source.lead_of_leads hm hl s.rounds [] s.source rfl hr
    rw [scan, hlead, hsource t rfl]
    rfl

/-- A scan that wants comments queues none. -/
theorem scan_wanted {mode : Mode} (hm : mode.comments = true) (s : TokenStream)
    (he : s.source.current.ending = none) (hr : s.source.current.rest.length < s.rounds) :
    ∃ t d e, s.source.current.Gets mode t [] d e ∧ s.scan mode = (t, s.after t [] d e) := by
  obtain ⟨rounds, hrounds⟩ : ∃ n, s.rounds = n + 1 := ⟨s.rounds - 1, by omega⟩
  rw [scan, hrounds]
  rcases Source.lead_wanted hm rounds [] s.source he with ⟨d, hg, hlead⟩ | ⟨d, t, e, hg, ht, hlead⟩
  · have hd : d.ending = none := by
      rw [((Scan.gap_ends _).ok hg).1, Cursor.ending_advance, he]
    obtain ⟨t, e, ht, -⟩ := (Scan.token_found mode d).exists_ok fun _ => Cursor.not_faulty hd
    refine ⟨t, d, e, .found (.token (.clear hg) ht) fun _ => rfl, ?_⟩
    rw [hlead]
    dsimp only
    rw [Source.take, Source.current_mark, Source.current_moveTo, ht, ← hrounds]
    rfl
  · refine ⟨t, d, e, ?_, ?_⟩
    · by_cases hk : t.kind = .illegal
      · exact .found (.unclosed (.unclosed hg ht hk)) fun _ => rfl
      · exact .comment hm rfl hg ht hk
    · rw [hlead, ← hrounds]
      rfl

/-- A scan finds the next token, queues the comments in front of it and marks its place. -/
theorem scan_gets (mode : Mode) (s : TokenStream) (he : s.source.current.ending = none)
    (hr : s.source.current.rest.length < s.rounds) : ∃ t ts d e,
      s.source.current.Gets mode t ts d e ∧ s.scan mode = (t, s.after t ts d e) := by
  cases hm : mode.comments with
  | false =>
    obtain ⟨ts, -, hf⟩ := scan_finds hm s he hr
    exact ⟨_, ts, _, _, .found hf fun h => absurd (hm.symm.trans h) nofun, scan_of_finds hm s hf hr⟩
  | true =>
    obtain ⟨t, d, e, hg, hscan⟩ := scan_wanted hm s he hr
    exact ⟨t, [], d, e, hg, hscan⟩

/-- What is read where a token may start is scanned there, under every mode. -/
theorem scan_of_takes {mode : Mode} {kind : Kind} {w rest : List Char} (s : TokenStream)
    (he : s.source.current.ending = none) (hr : s.source.current.rest.length < s.rounds)
    (hb : ∀ x ∈ s.source.current.rest.head?, Scan.isBlank x = false ∧ x ≠ '/')
    (h : Scan.Takes mode s.source.current.rest kind w rest) : ∃ e,
      Scan.token mode s.source.current = .ok (.make kind w s.source.current.position, e) ∧
      e.ending = none ∧ e.rest = rest ∧ s.scan mode = (.make kind w s.source.current.position,
        s.after (.make kind w s.source.current.position) [] s.source.current e) := by
  obtain ⟨e, htoken, hending, hrest⟩ := h s.source.current he rfl
  have hfound : s.source.current.Gets mode (.make kind w s.source.current.position) []
      s.source.current e :=
    .found (.token (.clear (Scan.gap_of_bare he hb)) htoken) fun _ => rfl
  obtain ⟨t, ts, d, e', hgets, hscan⟩ := s.scan_gets mode he hr
  obtain ⟨rfl, rfl, rfl, rfl⟩ := hfound.unique hgets
  exact ⟨e, htoken, hending, hrest, hscan⟩

end TokenStream

end ProtoIdl
