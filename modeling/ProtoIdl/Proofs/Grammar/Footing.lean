import ProtoIdl.Proofs.Grammar.Past
import ProtoIdl.Proofs.Token.Lookahead
/-!
# What reading a token does to a reader

`Reader.after` is the reader behind a token, and `Reader.looked` the one that has put it back. A reader
that finds a token goes there (`Reader.next_of_finds`), whatever is at the end of the text.
`Reader.Stands` says that the text has no ill-formed octets and that there are rounds enough; then a
token is found under every mode (`Reader.Stands.next_gets`). Looking at the next token never fails:
`Reader.peeked` is the reader that has looked (`Reading.run_peeked`).
-/
namespace ProtoIdl

namespace Reader

/-- The reader behind the token `t`, which was read from `d` to `e` behind the comments `ts`. -/
def after (r : Reader) (t : Token) (ts : List Token) (d e : Cursor) : Reader :=
  { stream := r.stream.after t ts d e, token := t, previous := some r.token }

/-- The reader that has put back the token `t`, which starts at `d` behind the comments `ts`. -/
def looked (r : Reader) (t : Token) (ts : List Token) (d : Cursor) : Reader :=
  { stream := { r.stream.after t ts d d with canUnscan := false }, token := r.token, previous := none }

variable {m : Mode} {r r' : Reader} {t : Token} {ts : List Token} {d e : Cursor}

@[simp]
theorem edge_after : (r.after t ts d e).edge = e := rfl

@[simp]
theorem mark_after : (r.after t ts d e).mark = d := rfl

@[simp]
theorem edge_looked : (r.looked t ts d).edge = d := rfl

@[simp]
theorem mark_looked : (r.looked t ts d).mark = d := rfl

theorem putBack_after : (r.after t ts d e).putBack = .ok (r.looked t ts d) := rfl

/-- Putting a token back goes back to where it starts, and leaves the rest of the stream. -/
theorem putBack_stream (h : r.putBack = .ok r') :
    r'.stream = { r.stream with source := r.stream.source.reset, canUnscan := false } := by
  unfold putBack at h
  split at h
  · cases h
  · unfold TokenStream.unscan at h
    split at h
    · obtain rfl := Except.ok.inj h
      rfl
    · cases h

/-- A reader that puts a token back stands where that token starts. -/
theorem putBack_places (h : r.putBack = .ok r') :
    r'.edge = r.mark ∧ r'.mark = r.mark ∧ r'.stream.rounds = r.stream.rounds := by
  have hstream := putBack_stream h
  rw [edge, mark, mark, hstream]
  exact ⟨rfl, rfl, rfl⟩

/-- A reader goes to the token that it finds. -/
theorem next_of_finds (hm : m.comments = false) (h : r.edge.Finds m t ts d e)
    (hr : r.edge.rest.length < r.stream.rounds) : r.next m = r.after t ts d e := by
  rw [next, TokenStream.scan_of_finds hm r.stream h hr]
  rfl

/-- The reader with other comments queued. -/
def setQueue (ts : List Token) (r : Reader) : Reader :=
  { r with stream := { r.stream with pending := ts } }

/-- The reader that has looked at the next token. -/
def peeked (m : Mode) (r : Reader) : Reader where
  stream := { (r.next m).stream with
    source := (r.next m).stream.source.reset
    canUnscan := false }
  token := r.token
  previous := none

@[simp]
theorem edge_setQueue : (r.setQueue ts).edge = r.edge := rfl

@[simp]
theorem mark_setQueue : (r.setQueue ts).mark = r.mark := rfl

@[simp]
theorem rounds_setQueue : (r.setQueue ts).stream.rounds = r.stream.rounds := rfl

@[simp]
theorem pending_setQueue : (r.setQueue ts).stream.pending = ts := rfl

@[simp]
theorem edge_peeked : (r.peeked m).edge = (r.next m).mark := rfl

@[simp]
theorem mark_peeked : (r.peeked m).mark = (r.next m).mark := rfl

@[simp]
theorem pending_peeked : (r.peeked m).stream.pending = (r.next m).stream.pending := rfl

@[simp]
theorem rounds_peeked : (r.peeked m).stream.rounds = r.stream.rounds := by
  rw [peeked, rounds_next]

/-- The reader stands in a text without ill-formed octets and has rounds enough. -/
structure Stands (r : Reader) : Prop where
  whole : r.mark.ending = none
  reached : r.mark.Reaches r.edge
  rounds : r.mark.rest.length < r.stream.rounds

theorem stands_ofBytes {bytes : List UInt8} (file : String) (h : (Utf8.decode bytes).2 = none) :
    (ofBytes bytes file).Stands where
  whole := h
  reached := .refl _
  rounds := Nat.lt_succ_self _

namespace Stands

theorem edge_whole (h : r.Stands) : r.edge.ending = none := h.reached.ending_eq.trans h.whole

theorem edge_rounds (h : r.Stands) : r.edge.rest.length < r.stream.rounds :=
  Nat.lt_of_le_of_lt h.reached.length_le h.rounds

/-- What reading a token does. -/
theorem next_gets (h : r.Stands) (mode : Mode) : ∃ t ts d e, r.edge.Gets mode t ts d e ∧
    r.next mode = r.after t ts d e := by
  obtain ⟨t, ts, d, e, hg, hscan⟩ := TokenStream.scan_gets mode r.stream h.edge_whole h.edge_rounds
  refine ⟨t, ts, d, e, hg, ?_⟩
  rw [Reader.next, hscan]
  rfl

theorem next_finds (h : r.Stands) (hm : m.comments = false) : ∃ t ts d e,
    r.edge.Finds m t ts d e ∧ r.next m = r.after t ts d e := by
  obtain ⟨ts, -, hf⟩ := TokenStream.scan_finds hm r.stream h.edge_whole h.edge_rounds
  exact ⟨_, ts, _, _, hf, next_of_finds hm hf h.edge_rounds⟩

theorem after (h : r.Stands) (hd : r.edge.Reaches d) (he : d.Reaches e) :
    (r.after t ts d e).Stands where
  whole := (h.reached.trans hd).ending_eq.trans h.whole
  reached := he
  rounds := Nat.lt_of_le_of_lt (h.reached.trans hd).length_le h.rounds

theorem looked (h : r.Stands) (hd : r.edge.Reaches d) : (r.looked t ts d).Stands where
  whole := (h.reached.trans hd).ending_eq.trans h.whole
  reached := .refl d
  rounds := Nat.lt_of_le_of_lt (h.reached.trans hd).length_le h.rounds

theorem next (h : r.Stands) (mode : Mode) : (r.next mode).Stands := by
  obtain ⟨t, ts, d, e, hg, hr⟩ := h.next_gets mode
  exact hr ▸ h.after hg.passes.reaches hg.reaches

theorem putBack (h : r.Stands) (hr : r.putBack = .ok r') : r'.Stands := by
  obtain ⟨hedge, hmark, hrounds⟩ := putBack_places hr
  refine ⟨hmark ▸ h.whole, ?_, ?_⟩
  · rw [hedge, hmark]
    exact .refl _
  · rw [hmark, hrounds]
    exact h.rounds

theorem setQueue (h : r.Stands) (ts : List Token) : (r.setQueue ts).Stands :=
  ⟨h.whole, h.reached, h.rounds⟩

theorem peeked (h : r.Stands) (m : Mode) : (r.peeked m).Stands := (h.next m).putBack rfl

/-- Where a token was found nothing is passed over. -/
theorem next_at_mark {c : Cursor} {k : Mode} (h : r.Stands) (hf : c.Finds k t ts r.edge e)
    (hc : c.ending = none) (hm : m.comments = false) :
    (r.next m).stream.pending = r.stream.pending ∧ (r.next m).mark = r.edge := by
  obtain ⟨t', ts', d', e', hf', hr'⟩ := h.next_finds hm
  obtain ⟨rfl, rfl, -⟩ := hf.again hc hf'
  rw [hr']
  exact ⟨List.append_nil _, rfl⟩

end Stands

end Reader

namespace Reading

theorem run_peeked (m : Mode) (r : Reader) :
    peek m r = .ok (r.next m).token.kind (r.peeked m) := run_peek rfl

theorem run_pending (r : Reader) : pending r = .ok r.stream.pending r := rfl

theorem run_setPending (ts : List Token) (r : Reader) : setPending ts r = .ok () (r.setQueue ts) := rfl

end Reading

end ProtoIdl
