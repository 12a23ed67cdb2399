import ProtoIdl.Proofs.Grammar.Bodies
import ProtoIdl.Proofs.Grammar.Peeked
import ProtoIdl.Proofs.Token.Followed
/-!
# Where another text goes on

What a reader does behind the last declaration of a text, if another text goes on there. One reader has
the first text alone, so the end of the text comes next, and the other has both (`Reader.Joins`). The
comments of the other text are below the declaration, so both readers attach the same to it
(`Grammar.fileTail_joins`). Then the second one has the other text in front of it (`Reader.Enters`).
-/
namespace ProtoIdl

open Reading

namespace Grammar

variable {opts : Options} {first : Bool} {l : Landing} {r r' : Reader} {comments : List Comment}
  {notes : Notes}

/-- The comments in front of the end of a text are those in the queue. -/
theorem fileHead_comments (h : fileHead opts first r = .ok (.ended comments) r') :
    comments = (r.peeked .plain).stream.pending.map Comment.ofToken := by
  have hnext : Sat (fileNext opts first) (r.peeked .plain) (fun l _ => ∀ comments,
      l = .ended comments → comments = (r.peeked .plain).stream.pending.map Comment.ofToken)
        fun _ => True :=
    fileNext_sat rfl rfl (fun _ _ hl => (Landing.ended.inj hl).symm) nofun
      (fun _ => (sat_trivial _ _).mono fun _ _ _ => nofun)
      fun _ => (sat_trivial _ _).mono fun _ _ _ => nofun
  rw [fileHead, run_bind (run_peeked .plain r)] at h
  exact hnext.ok h comments rfl

/-- Behind an empty statement the queue is empty: nothing is passed over between two looks at it. -/
theorem fileHead_skipped (hr : r.Stands) (h : fileHead opts first r = .ok .skipped r') :
    r'.stream.pending = [] := by
  have hnext : Sat (fileNext opts first) (r.peeked .plain) (fun l r' => l = .skipped →
      r' = (((r.peeked .plain).setQueue []).peeked .keyword).next .plain) fun _ => True :=
    fileNext_sat rfl rfl (fun _ => nofun) (fun _ => rfl)
      (fun _ => (sat_trivial _ _).mono fun _ _ _ => nofun)
      fun _ => (sat_trivial _ _).mono fun _ _ _ => nofun
  rw [fileHead, run_bind (run_peeked .plain r)] at h
  obtain rfl := hnext.ok h rfl
  obtain ⟨t, ts, d, e, hf, hq⟩ := hr.next_finds (m := .plain) rfl
  have hfirst : ((r.peeked .plain).setQueue []).Stands := (hr.peeked .plain).setQueue []
  have hedge : ((r.peeked .plain).setQueue []).edge = d := by
    rw [Reader.edge_setQueue, Reader.edge_peeked, hq, Reader.mark_after]
  obtain ⟨hpending, hmark⟩ := hfirst.next_at_mark (m := .keyword) (hedge ▸ hf) hr.edge_whole rfl
  have hedge' : (((r.peeked .plain).setQueue []).peeked .keyword).edge = d := by
    rw [Reader.edge_peeked, hmark, hedge]
  have hsecond := (hfirst.peeked .keyword).next_at_mark (m := .plain) (hedge' ▸ hf) hr.edge_whole rfl
  rw [hsecond.1, Reader.pending_peeked, hpending, Reader.pending_setQueue]

/-- A declaration ends right in front of the reader, and the comments in the queue are in it. -/
theorem fileHead_declared (hr : r.Stands) (h : fileHead opts first r = .ok l r')
    (hl : l.declared? = some (comments, notes)) :
    (∀ t ∈ r'.stream.pending, t.position.offset < notes.extent.last.offset) ∧
      r'.Stops r.edge notes.extent.last := by
  obtain ⟨t, ts, d, e, hf, hq⟩ := hr.next_finds (m := .plain) rfl
  have hfirst : ((r.peeked .plain).setQueue []).Stands := (hr.peeked .plain).setQueue []
  have hreach : r.edge.Reaches ((r.peeked .plain).setQueue []).edge := by
    rw [Reader.edge_setQueue, Reader.edge_peeked, hq, Reader.mark_after]
    exact hf.passes.reaches
  have hpast : ((r.peeked .plain).setQueue []).Past r.edge :=
    ⟨hr.edge_whole, hreach, hfirst.edge_rounds, by simp⟩
  have hlook := Keeps.goes (x := peek .keyword) (fun _ => keeps_peek rfl) hpast
  have hp := (hlook.ok (run_peeked .keyword _)).of_reaches hreach
  have hbody (scope : Scope) (e : Cursor) (q : Reader) (h : q.Past e) (hc : r.edge.Reaches q.edge) :
      Gives (body opts scope) q (BodyRead r.edge q) := body_gives opts scope h hc
  have hnext : Sat (fileNext opts first) (r.peeked .plain) (fun l r' => ∀ comments notes,
      l.declared? = some (comments, notes) →
        (∀ t ∈ r'.stream.pending, t.position.offset < notes.extent.last.offset) ∧
          r'.Stops r.edge notes.extent.last) fun _ => True := by
    refine fileNext_sat rfl rfl (fun _ => by rintro _ _ ⟨⟩) (by rintro _ _ ⟨⟩)
      (fun _ => (version_gives hp).mono fun v q hv => ?_)
      fun p => (declaration_gives (.refl r.edge) hbody opts p hp).mono fun e q he => ?_
    · rintro _ _ ⟨⟩
      exact ⟨hv.behind, hv.stops.of_reaches hp.reached⟩
    · rintro _ _ ⟨⟩
      rw [he.declared.bare]
      exact ⟨he.behind, he.stops.of_reaches hp.reached⟩
  rw [fileHead, run_bind (run_peeked .plain r)] at h
  exact hnext.ok h comments notes hl

end Grammar

/-- Comments are not above the place from which they are passed over. -/
theorem Passes.line_le {c d : Cursor} {ts : List Token} (h : Passes c ts d) :
    ∀ t ∈ ts, c.position.line ≤ t.position.line := by
  induction h with
  | nil h => simp
  | cons hb ht hts ih =>
    have hle := ht.reaches.line_le
    obtain ⟨n, text, h2, hn, rfl, rfl⟩ := ht
    refine List.forall_mem_cons.2 ⟨hb.line_le, fun t ht => ?_⟩
    exact (hb.line_le.trans hle).trans (ih t ht)

/-- In a text that ends with a newline the end is below any place that something follows. -/
theorem Reader.Stops.line_lt {c : Cursor} {p : Position} {r : Reader} (h : r.Stops c p)
    (hc : c.EndsLine) (hr : r.edge.rest ≠ []) : p.line < r.edge.atEnd.position.line := by
  obtain ⟨b, hcb, rfl, hedge⟩ := h
  have hb : b.rest ≠ [] := by
    intro hnil
    rw [hedge, Cursor.rest_advance, hnil] at hr
    exact hr rfl
  have hreach : b.Reaches r.edge := hedge ▸ b.reaches_advance 1
  have hcount := List.count_pos_iff.2 ((hc.suffix hcb.suffix).newline_mem hb)
  rw [hreach.atEnd_eq, Cursor.position_atEnd, Position.line_after]
  omega

namespace Reader

/-- `r` stands where only white space and comments are left of a text, and `q` at the same place of the
text with `more` behind it. There comes a token at `d`, and the comments `us` are in front of it. -/
structure Joins (more : List Char) (us : List Token) (d : Cursor) (r q : Reader) : Prop where
  stands : r.Stands
  edge : q.edge = r.edge.followed more
  pending : q.stream.pending = r.stream.pending
  rounds : q.edge.rest.length < q.stream.rounds
  ends : r.edge.EndsLine
  clear : ∃ ts d, r.edge.Leads .clear ts d d ∧ d.rest = []
  finds : ∃ t e, (r.edge.atEnd.followed more).Finds .plain t us d e

/-- A reader that looks at the next token gets to `d` in the text `more`, and then the queue is `us`. -/
structure Enters (more : List Char) (us : List Token) (d : Cursor) (q : Reader) : Prop where
  pending : (q.next .plain).stream.pending = us
  mark : (q.next .plain).mark = d
  rounds : more.length < q.stream.rounds

variable {more : List Char} {us : List Token} {d : Cursor} {r q : Reader}

theorem exists_pending_next (m : Mode) (r : Reader) :
    ∃ ts, (r.next m).stream.pending = r.stream.pending ++ ts := ⟨_, rfl⟩

/-- The comments left of the first text are in front of those of the other one. -/
theorem Joins.finds_both (h : r.Joins more us d q) : ∃ ts,
    (∃ t d e, r.edge.Finds .plain t ts d e) ∧ ∃ t e, q.edge.Finds .plain t (ts ++ us) d e := by
  obtain ⟨ts, c, hlead, hc⟩ := h.clear
  obtain ⟨t, e, hf⟩ := h.finds
  have hwhole : c.ending = none := hlead.passes.reaches.ending_eq.trans h.stands.edge_whole
  obtain ⟨u, e', hu, -⟩ := (Scan.token_found .plain c).exists_ok fun _ => Cursor.not_faulty hwhole
  refine ⟨ts, ⟨u, c, e', .token hlead hu⟩, t, e, ?_⟩
  rw [h.edge]
  exact .followed hlead h.stands.edge_whole h.ends hc hf

theorem Joins.more_lt (h : r.Joins more us d q) : more.length < q.stream.rounds := by
  have hlt := h.rounds
  rw [h.edge, Cursor.followed, List.length_append] at hlt
  omega

/-- If no comments are left of the first text, the reader enters the other one. -/
theorem Joins.enters (h : r.Joins more us d q) (hr : r.stream.pending = [])
    (hnone : (r.next .plain).stream.pending = []) : q.Enters more us d := by
  obtain ⟨ts, ⟨t, c, e, hf⟩, t', e', hf'⟩ := h.finds_both
  rw [next_of_finds rfl hf h.stands.edge_rounds] at hnone
  have hts : ts = [] := (List.append_eq_nil_iff.1 hnone).2
  have hnext := next_of_finds rfl hf' h.rounds
  refine ⟨?_, by rw [hnext, mark_after], h.more_lt⟩
  rw [hnext]
  change q.stream.pending ++ (ts ++ us) = us
  rw [h.pending, hr, hts, List.nil_append, List.nil_append]

end Reader

namespace Grammar

variable {l : Landing} {comments : List Comment} {notes : Notes} {more : List Char} {place : Position}
  {ts us : List Token} {d : Cursor} {r r' q : Reader} {g g' : File}

/-- A declaration does not claim a comment that starts below it. -/
theorem claim_append (h : (claim place ts).2 = []) (hus : ∀ u ∈ us, place.line < u.position.line) :
    claim place (ts ++ us) = ((claim place ts).1, us) := by
  cases ts with
  | nil =>
    cases us with
    | nil => rfl
    | cons u us =>
      have hu := hus u List.mem_cons_self
      rw [List.nil_append, claim, if_neg hu.ne', claim]
  | cons t ts =>
    rw [List.cons_append, claim]
    rw [claim] at h ⊢
    split at h
    · next ht =>
      obtain rfl : ts = [] := h
      rw [if_pos ht, if_pos ht]
      rfl
    · cases h

/-- What looking for a comment behind a declaration does, if those in the queue are in the declaration. -/
theorem seek_places {t : Token} {e : Cursor} (hf : r.edge.Finds .plain t ts d e)
    (hr : r.edge.rest.length < r.stream.rounds)
    (hbehind : ∀ t ∈ r.stream.pending, t.position.offset < place.offset) :
    (seek place r).stream.pending = ts ∧ (seek place r).edge = d := by
  have hqueue : queueFrom place r.stream.pending = [] :=
    List.dropWhile_eq_nil_iff.2 fun t ht => decide_eq_true (hbehind t ht)
  have hnext : (r.setQueue []).next .plain = (r.setQueue []).after t ts d e :=
    Reader.next_of_finds rfl hf hr
  rw [seek, hqueue, Reader.pending_peeked, Reader.edge_peeked, hnext]
  exact ⟨rfl, rfl⟩

/-- If the declaration claims all comments left of the first text, it claims no other one if another
text follows, and the reader enters that text. -/
theorem fileTail_joins (h : r.Joins more us d q) (hl : l.declared? = some (comments, notes))
    (hbehind : ∀ t ∈ r.stream.pending, t.position.offset < notes.extent.last.offset)
    (hus : ∀ u ∈ us, notes.extent.last.line < u.position.line)
    (htail : fileTail g l r = .ok (.again g') r') (hnone : (r'.next .plain).stream.pending = []) :
    ∃ q', fileTail g l q = .ok (.again g') q' ∧ q'.Enters more us d := by
  obtain ⟨ts, ⟨t, c, e, hf⟩, t', e', hf'⟩ := h.finds_both
  obtain ⟨hleft, -⟩ := seek_places hf h.stands.edge_rounds hbehind
  obtain ⟨hright, hedge⟩ := seek_places hf' h.rounds (h.pending ▸ hbehind)
  rw [run_fileTail hl] at htail
  obtain ⟨hput, rfl⟩ := EStateM.Result.ok.inj htail
  have hclaim : (claim notes.extent.last ts).2 = [] := by
    obtain ⟨us, hus⟩ := Reader.exists_pending_next .plain (claimed notes.extent.last r)
    rw [hus, claimed, Reader.pending_setQueue, hleft] at hnone
    exact (List.append_eq_nil_iff.1 hnone).1
  have happend := claim_append hclaim hus
  have hsame : attachment comments notes q = attachment comments notes r := by
    rw [attachment, attachment, hright, hleft, happend]
  refine ⟨claimed notes.extent.last q, ?_, ?_⟩
  · rw [run_fileTail hl, hsame, Round.again.inj hput]
  · have hwhole : q.edge.ending = none := h.edge ▸ h.stands.edge_whole
    have hmark : (claimed notes.extent.last q).edge.Finds .plain t' [] d e' := by
      rw [claimed, Reader.edge_setQueue, hedge]
      exact hf'.at_mark hwhole
    have hsame : (claimed notes.extent.last q).stream.rounds = q.stream.rounds := by
      rw [claimed, Reader.rounds_setQueue, seek, Reader.rounds_peeked, Reader.rounds_setQueue]
    have hrounds : (claimed notes.extent.last q).edge.rest.length <
        (claimed notes.extent.last q).stream.rounds := by
      rw [hsame, claimed, Reader.edge_setQueue, hedge]
      exact Nat.lt_of_le_of_lt hf'.passes.reaches.length_le h.rounds
    have hnext := Reader.next_of_finds rfl hmark hrounds
    refine ⟨?_, by rw [hnext, Reader.mark_after], hsame ▸ h.more_lt⟩
    rw [hnext]
    change (claimed notes.extent.last q).stream.pending ++ [] = us
    rw [List.append_nil, claimed, Reader.pending_setQueue, hright, happend]

end Grammar

end ProtoIdl
