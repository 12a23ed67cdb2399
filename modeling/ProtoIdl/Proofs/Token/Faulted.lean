import ProtoIdl.Proofs.Token.Lookahead
import ProtoIdl.Proofs.Token.Seam
import Mathlib.Data.List.TakeWhile
/-!
# Scanning towards ill-formed octets

Where only white space and comments are left, the end of the text comes next; but if ill-formed octets
stand behind them, scanning runs into these: `Cursor.Sinks`. Each comment on the way is marked, so a
scan that is taken back returns to the last one, from where it runs into the same octets again
(`Cursor.Sinks.again`). Without a comment the mark stays where it was.
-/
namespace ProtoIdl

namespace Cursor

/-- The same text with ill-formed octets behind it. -/
def faulted (fault : Utf8.Fault) (c : Cursor) : Cursor := { c with ending := some fault }

/-- From `c` on scanning runs into the error `e`; `o` is the last comment on the way. -/
inductive Sinks (e : LexicalError) : Cursor → Option Cursor → Prop
  | gap {c : Cursor} (hg : Scan.gap c = .error e) : Sinks e c none
  | comment {c d : Cursor} (hg : Scan.gap c = .ok (true, d)) (ht : Scan.comment d = .error e) :
      Sinks e c (some d)
  | later {a b c : Cursor} {t : Token} {o : Option Cursor} (hg : Scan.gap a = .ok (true, b))
      (ht : Scan.comment b = .ok (t, c)) (hk : t.kind ≠ .illegal) (h : Sinks e c o) :
      Sinks e a (some (o.getD b))

end Cursor

namespace Scan

variable {c d : Cursor} {t : Token} {fault : Utf8.Fault}

theorem run_run {p : Char → Bool} {o : Option Char}
    (h : (c.advance (c.rest.takeWhile p).length).peek = .ok o) :
    run p c = .ok (c.rest.takeWhile p, c.advance (c.rest.takeWhile p).length) := by
  simp only [run, h, bind, Except.bind, pure, Except.pure]

theorem run_run_error {p : Char → Bool} {e : LexicalError}
    (h : (c.advance (c.rest.takeWhile p).length).peek = .error e) : run p c = .error e := by
  simp only [run, h, bind, Except.bind]

theorem run_peekSecond {x y : Char} {more : List Char} (h : c.rest = x :: y :: more) :
    peekSecond c = .ok (some y, c) := by
  have hpeek : (c.advance 1).peek = .ok (some y) := Cursor.peek_of_rest (by rw [Cursor.rest_advance, h]; rfl)
  simp only [peekSecond, hpeek, bind, Except.bind, pure, Except.pure]

/-- A comment behind white space is seen, whatever is at the end of the text. -/
theorem gap_of_opens (h : OpensComment (c.advance (c.rest.takeWhile isBlank).length).rest) :
    gap c = .ok (true, c.advance (c.rest.takeWhile isBlank).length) := by
  obtain ⟨x, more, hr, hx⟩ := h
  have hpeek := Cursor.peek_of_rest hr
  rw [gap, run_bind (run_run hpeek), run_bind (run_peek hpeek), if_pos rfl,
    run_bind (run_peekSecond hr)]
  rcases hx with rfl | rfl <;> rfl

/-- Where a comment opens no white space is in front of it. -/
theorem gap_at_comment (h : OpensComment c.rest) : gap c = .ok (true, c) := by
  obtain ⟨x, more, hr, hx⟩ := h
  have hnil : c.rest.takeWhile isBlank = [] := by
    rw [hr]
    exact List.takeWhile_cons_of_neg (by decide)
  have hgap := gap_of_opens (c := c)
  rw [hnil, List.length_nil, Cursor.advance_zero] at hgap
  exact hgap ⟨x, more, hr, hx⟩

/-- In front of a stop there is nothing to pass over. -/
theorem gap_at_stop {x : Char} {more : List Char} (hc : c.rest = x :: more)
    (hx : Seam.isStop x = true) : gap c = .ok (false, c) := by
  simp only [Seam.isStop, Bool.or_eq_true, beq_iff_eq] at hx
  obtain ⟨hblank, hslash⟩ : isBlank x = false ∧ x ≠ '/' := by
    rcases hx with rfl | rfl <;> decide
  have hrun : run isBlank c = .ok ([], c) := by
    have hnil : c.rest.takeWhile isBlank = [] := by
      rw [hc]
      exact List.takeWhile_cons_of_neg (by rw [hblank]; nofun)
    have hrun := run_run (p := isBlank) (c := c) (o := some x)
    rw [hnil, List.length_nil, Cursor.advance_zero] at hrun
    exact hrun (Cursor.peek_of_rest hc)
  rw [gap, run_bind hrun, run_bind (run_peek (Cursor.peek_of_rest hc)),
    if_neg fun h => hslash (Option.some.inj h)]
  rfl

/-- Where nothing is left behind white space, all that was left is white space. -/
theorem blank_of_gap {b : Bool} (hg : gap c = .ok (b, d)) (hd : d.rest = []) :
    ∀ x ∈ c.rest, isBlank x = true := by
  obtain ⟨rfl, -⟩ := (gap_ends c).ok hg
  rw [Cursor.rest_advance, List.drop_eq_nil_iff] at hd
  exact List.takeWhile_eq_self_iff.1 ((List.takeWhile_prefix _).eq_of_length_le hd)

/-- White space runs into ill-formed octets behind it. -/
theorem gap_of_blank (h : ∀ x ∈ c.rest, isBlank x = true) :
    gap (c.faulted fault) = .error ⟨.illFormed fault, c.atEnd.position⟩ := by
  have hall : c.rest.takeWhile isBlank = c.rest := List.takeWhile_eq_self_iff.2 h
  have hpeek : ((c.faulted fault).advance ((c.faulted fault).rest.takeWhile isBlank).length).peek =
      .error ⟨.illFormed fault, c.atEnd.position⟩ := by
    simp [Cursor.faulted, hall, Cursor.peek, Cursor.advance, Cursor.atEnd]
  rw [gap, run_bind_error (run_run_error hpeek)]

/-- A block comment that is not closed is no token of the grammar. -/
theorem blockComment_illegal (he : c.ending = none) (hn : untilClosed (c.rest.drop 2) = none)
    (h : blockComment c = .ok (t, d)) : t.kind = .illegal := by
  have hpeek : (c.advance c.rest.length).peek = .ok none := by simp [Cursor.peek, he]
  rw [blockComment_unclosed hn, run_bind (run_skip _ c), run_bind (run_peek hpeek)] at h
  obtain ⟨rfl, -⟩ := Prod.mk.inj (Except.ok.inj h)
  rfl

/-- A comment is the same with ill-formed octets behind it, or it runs into them. -/
theorem comment_faulted (fault : Utf8.Fault) (hc : OpensComment c.rest) (he : c.ending = none)
    (ht : comment c = .ok (t, d)) (hk : t.kind ≠ .illegal) :
    comment (c.faulted fault) = .ok (t, d.faulted fault) ∨
      comment (c.faulted fault) = .error ⟨.illFormed fault, c.atEnd.position⟩ := by
  rcases hfaulted : comment (c.faulted fault) with e | ⟨t', d'⟩
  · obtain ⟨fault', hf, rfl⟩ := (comment_ends (c := c.faulted fault) hc).error hfaulted
    obtain rfl := Option.some.inj hf
    exact .inr rfl
  refine .inl ?_
  obtain ⟨x, more, hr, hx⟩ := hc
  have hcommentOf (n : Nat) (trim : List Char → List Char) (h : commentOf n trim c = .ok (t, d))
      (h' : commentOf n trim (c.faulted fault) = .ok (t', d')) : t' = t ∧ d' = d.faulted fault := by
    cases h
    cases h'
    exact ⟨rfl, rfl⟩
  suffices t' = t ∧ d' = d.faulted fault by rw [this.1, this.2]
  rw [comment, run_bind (run_peekSecond hr)] at ht
  rw [comment, run_bind (run_peekSecond (c := c.faulted fault) hr)] at hfaulted
  by_cases hslash : some x = some '/'
  · rw [if_pos hslash] at ht hfaulted
    obtain ⟨chars, e, hrun, rfl, -⟩ := (run_ends (· != '\n')).exists_ok fun _ => Cursor.not_faulty he
    rw [lineComment_eq hrun] at ht
    rcases hrun' : run (· != '\n') (c.faulted fault) with e' | ⟨chars', e'⟩
    · rw [lineComment, run_bind (run_get _), run_bind_error hrun'] at hfaulted
      cases hfaulted
    · obtain ⟨rfl, -⟩ := (run_ends _).ok hrun'
      rw [lineComment_eq hrun'] at hfaulted
      exact hcommentOf _ _ ht hfaulted
  · rw [if_neg hslash] at ht hfaulted
    cases hn : untilClosed (c.rest.drop 2) with
    | some n =>
      rw [blockComment_eq hn] at ht
      rw [blockComment_eq (c := c.faulted fault) hn] at hfaulted
      exact hcommentOf _ _ ht hfaulted
    | none => exact absurd (blockComment_illegal he hn ht) hk

end Scan

namespace Cursor

variable {c d m : Cursor} {e : LexicalError} {o : Option Cursor} {ts : List Token}

/-- The comment that scanning came to last opens where it was marked. -/
theorem Sinks.opens (h : c.Sinks e o) (hm : o = some m) :
    Scan.OpensComment m.rest ∧ c.Reaches m := by
  induction h generalizing m with
  | gap hg => cases hm
  | @comment c d hg ht =>
    obtain rfl := Option.some.inj hm
    obtain ⟨rfl, hopen⟩ := (Scan.gap_ends c).ok hg
    exact ⟨hopen.1 rfl, c.reaches_advance _⟩
  | @later a b c t o hg ht hk h ih =>
    obtain ⟨hab, hc, -⟩ := Scan.gap_comment hg ht hk
    obtain rfl := Option.some.inj hm
    cases o with
    | none => exact ⟨((Scan.gap_ends a).ok hg).2.1 rfl, hab⟩
    | some m =>
      obtain ⟨hm, hcm⟩ := ih rfl
      exact ⟨hm, (hab.trans hc.reaches).trans hcm⟩

/-- From there scanning runs into the same error, and comes to no other comment. -/
theorem Sinks.again (h : c.Sinks e o) (hm : o = some m) : m.Sinks e (some m) := by
  have hgap := Scan.gap_at_comment (h.opens hm).1
  induction h generalizing m with
  | gap hg => cases hm
  | comment hg ht =>
    obtain rfl := Option.some.inj hm
    exact .comment hgap ht
  | @later a b c t o hg ht hk h ih =>
    obtain rfl := Option.some.inj hm
    cases o with
    | none => exact .later hgap ht hk h
    | some m => exact ih rfl hgap

/-- Where the end of the text would come next, scanning runs into the ill-formed octets behind it. It
comes to a comment if there is one. -/
theorem Leads.sinks {l : Source.Lead} {d' : Cursor} (h : c.Leads l ts d d') (hl : l = .clear)
    (he : c.ending = none) (hd : d.rest = []) (fault : Utf8.Fault) :
    ∃ o, (c.faulted fault).Sinks ⟨.illFormed fault, c.atEnd.position⟩ o ∧
      (o = none → ∀ x ∈ c.rest, Scan.isBlank x = true) := by
  induction h with
  | @clear c d hg =>
    have hblank := Scan.blank_of_gap hg hd
    exact ⟨none, .gap (Scan.gap_of_blank hblank), fun _ => hblank⟩
  | unclosed => cases hl
  | @comment a b c d d' t l ts hg ht hk h ih =>
    obtain ⟨hab, hc, -⟩ := Scan.gap_comment hg ht hk
    obtain ⟨rfl, hopen⟩ := (Scan.gap_ends a).ok hg
    have hgap := Scan.gap_of_opens (c := a.faulted fault) (hopen.1 rfl)
    have hb := hab.ending_eq.trans he
    rcases Scan.comment_faulted fault (hopen.1 rfl) hb ht hk with hcomment | hcomment
    · obtain ⟨o, ho, -⟩ := ih hl (hc.reaches.ending_eq.trans hb) hd
      rw [hc.reaches.atEnd_eq, hab.atEnd_eq] at ho
      exact ⟨_, .later hgap hcomment hk ho, nofun⟩
    · rw [hab.atEnd_eq] at hcomment
      exact ⟨_, .comment hgap hcomment, nofun⟩

end Cursor

namespace Source

/-- What scanning runs into stands in front of any token. -/
theorem lead_of_sinks {mode : Mode} (hm : mode.comments = false) {c : Cursor} {e : LexicalError}
    {o : Option Cursor} (h : c.Sinks e o) (rounds : Nat) (passed : List Token) (s : Source)
    (hs : s.current = c) (hr : c.rest.length < rounds) : ∃ passed' source,
      s.lead mode rounds passed = (.token (.ofError e), passed', source) ∧
        source.marked = o.getD s.marked := by
  induction h generalizing rounds passed s with
  | gap hg =>
    obtain ⟨rounds, rfl⟩ : ∃ n, rounds = n + 1 := ⟨rounds - 1, by omega⟩
    refine ⟨passed, s.moveTo s.current.atEnd, ?_, rfl⟩
    rw [lead, take, hs, hg]
  | @comment c d hg ht =>
    obtain ⟨rounds, rfl⟩ : ∃ n, rounds = n + 1 := ⟨rounds - 1, by omega⟩
    refine ⟨passed, (s.moveTo d).mark.moveTo d.atEnd, ?_, rfl⟩
    rw [lead, take, hs, hg]
    dsimp only
    rw [take, current_mark, current_moveTo, ht]
  | @later a b c t o hg ht hk h ih =>
    obtain ⟨rounds, rfl⟩ : ∃ n, rounds = n + 1 := ⟨rounds - 1, by omega⟩
    have hlt := (Scan.gap_comment hg ht hk).2.2
    obtain ⟨passed', source, hlead, hmarked⟩ :=
      ih rounds (passed ++ [t]) ((s.moveTo b).mark.moveTo c) rfl (by omega)
    refine ⟨passed', source, ?_, ?_⟩
    · rw [lead, take, hs, hg]
      dsimp only
      rw [take, current_mark, current_moveTo, ht]
      dsimp only
      rw [hm, Bool.false_or, if_neg (by simpa using hk), hlead]
    · rw [hmarked, marked_moveTo, marked_mark, current_moveTo]
      cases o <;> rfl

end Source

/-- The error that scanning runs into is handed out, and marked is the last comment on the way. -/
theorem TokenStream.scan_of_sinks {mode : Mode} (hm : mode.comments = false) {s : TokenStream}
    {e : LexicalError} {o : Option Cursor} (h : s.source.current.Sinks e o)
    (hr : s.source.current.rest.length < s.rounds) : ∃ s',
      s.scan mode = (.ofError e, s') ∧ s'.source.marked = o.getD s.source.marked := by
  obtain ⟨passed, source, hlead, hmarked⟩ := Source.lead_of_sinks hm h s.rounds [] s.source rfl hr
  rw [scan, hlead]
  exact ⟨_, rfl, hmarked⟩

end ProtoIdl
