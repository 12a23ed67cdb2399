import ProtoIdl.Proofs.Grammar.Invariant
import ProtoIdl.Proofs.Token.Stream
import Mathlib.Order.Basic
import Mathlib.Data.Int.Order.Basic
/-!
# Reading goes forward

On a text without ill-formed octets a reader never goes back behind a place it has passed:
`Reader.Past e` is an invariant of reading. A token just read can be put back: that returns to where
it starts, and the comments queued are in front of that place. `Reader.Reads` says where the token
itself stands.
-/
namespace ProtoIdl

/-- A place of a character between two cursors. -/
def Cursor.Between (c d : Cursor) (p : Position) : Prop :=
  ∃ e, c.Reaches e ∧ e.position = p ∧ e.rest ≠ [] ∧ (e.advance 1).Reaches d

namespace Cursor.Between

variable {c d : Cursor} {p : Position}

theorem le (h : c.Between d p) : c.position.offset ≤ p.offset := by
  obtain ⟨e, he, rfl, -, -⟩ := h
  exact he.offset_le

theorem lt (h : c.Between d p) : p.offset < d.position.offset := by
  obtain ⟨e, -, rfl, hne, hd⟩ := h
  have := offset_lt_advance Nat.one_pos hne
  have := hd.offset_le
  omega

theorem sees (h : c.Between d p) : c.Sees p := by
  obtain ⟨e, he, hp, -, -⟩ := h
  exact ⟨e, he, hp⟩

theorem mono {c' d' : Cursor} (hc : c'.Reaches c) (hd : d.Reaches d') (h : c.Between d p) :
    c'.Between d' p := by
  obtain ⟨e, he, hp, hne, hed⟩ := h
  exact ⟨e, hc.trans he, hp, hne, hed.trans hd⟩

end Cursor.Between

/-- Comments that were passed over are in front of the place reached. -/
theorem Passes.offset_lt {c d : Cursor} {ts : List Token} (h : Passes c ts d) :
    ∀ t ∈ ts, t.position.offset < d.position.offset := by
  induction h with
  | nil h => simp
  | cons hb ht hts ih =>
    refine List.forall_mem_cons.2 ⟨?_, ih⟩
    have hle := hts.reaches.offset_le
    obtain ⟨n, text, h2, hn, rfl, rfl⟩ := ht
    exact (Cursor.offset_lt_advance (by omega) (List.ne_nil_of_length_pos (by omega))).trans_le hle

namespace Reader

/-- Where reading stands. -/
def edge (r : Reader) : Cursor := r.stream.source.current

/-- Where the token that was scanned last starts. -/
def mark (r : Reader) : Cursor := r.stream.source.marked

/-- Reading stands behind `e`, and the comments queued are in front of it. -/
structure Past (e : Cursor) (r : Reader) : Prop where
  whole : e.ending = none
  reached : e.Reaches r.edge
  rounds : r.edge.rest.length < r.stream.rounds
  queue : ∀ t ∈ r.stream.pending, t.position.offset < r.edge.position.offset

/-- Reading stands behind `e` after the token just read, and would do so without it. -/
structure PastBoth (e : Cursor) (r : Reader) : Prop extends Past e r where
  mark_reached : e.Reaches r.mark
  mark_rounds : r.mark.rest.length < r.stream.rounds
  mark_queue : ∀ t ∈ r.stream.pending, t.position.offset < r.mark.position.offset

/-- The current token of `r'` was read after `r`; the comments queued are in front of it. -/
structure Reads (r r' : Reader) : Prop where
  past : r'.Past r.edge
  spot : r.edge.Between r'.edge r'.token.position
  queue : ∀ t ∈ r'.stream.pending, t.position.offset < r'.token.position.offset

variable {e : Cursor} {r r' : Reader}

theorem Past.of_reaches {d : Cursor} (h : r.Past d) (hd : e.Reaches d) : r.Past e where
  whole := hd.ending_eq.symm.trans h.whole
  reached := hd.trans h.reached
  rounds := h.rounds
  queue := h.queue

theorem PastBoth.of_reaches {d : Cursor} (h : r.PastBoth d) (hd : e.Reaches d) : r.PastBoth e where
  toPast := h.toPast.of_reaches hd
  mark_reached := hd.trans h.mark_reached
  mark_rounds := h.mark_rounds
  mark_queue := h.mark_queue

theorem Past.trans (h : r.Past e) (h' : r'.Past r.edge) : r'.Past e := h'.of_reaches h.reached

theorem Past.edge_whole (h : r.Past e) : r.edge.ending = none := h.reached.ending_eq.trans h.whole

/-- What the next token is. -/
theorem Past.finds (h : r.Past e) (mode : Mode) (hm : mode.comments = false) :
    ∃ ts, (r.next mode).stream.pending = r.stream.pending ++ ts ∧
      r.edge.Finds mode (r.next mode).token ts (r.next mode).mark (r.next mode).edge :=
  TokenStream.scan_finds hm r.stream h.edge_whole h.rounds

theorem rounds_next (mode : Mode) (r : Reader) :
    (r.next mode).stream.rounds = r.stream.rounds := by
  simp only [next, TokenStream.scan]

theorem Past.queue_next (h : r.Past e) (mode : Mode) (hm : mode.comments = false) :
    ∀ t ∈ (r.next mode).stream.pending,
      t.position.offset < (r.next mode).mark.position.offset := by
  obtain ⟨ts, hts, hf⟩ := h.finds mode hm
  rw [hts]
  refine List.forall_mem_append.2 ⟨fun t ht => ?_, hf.passes.offset_lt⟩
  exact (h.queue t ht).trans_le hf.passes.reaches.offset_le

theorem Past.next (h : r.Past e) (mode : Mode) (hm : mode.comments = false) :
    (r.next mode).PastBoth r.edge := by
  have hq := h.queue_next mode hm
  obtain ⟨ts, hts, hf⟩ := h.finds mode hm
  have hmark := hf.passes.reaches
  have hedge := hf.found.reaches
  have hr := h.rounds
  refine ⟨⟨h.edge_whole, hmark.trans hedge, ?_, fun t ht => ?_⟩, hmark, ?_, hq⟩
  · rw [rounds_next]
    exact Nat.lt_of_le_of_lt (hmark.trans hedge).length_le hr
  · exact (hq t ht).trans_le hedge.offset_le
  · rw [rounds_next]
    exact Nat.lt_of_le_of_lt hmark.length_le hr

theorem PastBoth.putBack (h : r.PastBoth e) (hr : r.putBack = .ok r') : r'.Past e := by
  unfold Reader.putBack at hr
  split at hr
  · cases hr
  · next token ht =>
    cases hu : r.stream.unscan with
    | error m =>
      rw [hu] at hr
      cases hr
    | ok s =>
      rw [hu] at hr
      obtain rfl := Except.ok.inj hr
      unfold TokenStream.unscan at hu
      split at hu
      · obtain rfl := Except.ok.inj hu
        exact ⟨h.whole, h.mark_reached, h.mark_rounds, h.mark_queue⟩
      · cases hu

/-- A token of the grammar stands behind the reader before it. -/
theorem Past.reads (h : r.Past e) (mode : Mode) (hm : mode.comments = false)
    (hk : (r.next mode).token.kind ≠ .illegal) (hk' : (r.next mode).token.kind ≠ .eof) :
    r.Reads (r.next mode) := by
  have hq := h.queue_next mode hm
  obtain ⟨ts, hts, hf⟩ := h.finds mode hm
  have hpos := hf.found.position_eq hk
  refine ⟨(h.next mode hm).toPast, ?_, by rwa [hpos]⟩
  cases hf.found with
  | lexed hne hd ht => exact ⟨_, hf.passes.reaches, hpos.symm, hne, hd⟩
  | eof hc hd ht => exact absurd (by rw [ht, Token.make]) hk'

end Reader

/-- To have passed a place is an invariant of reading. -/
def past (e : Cursor) : Invariant where
  holds := Reader.Past e
  fresh := Reader.PastBoth e
  failure _ := True
  next hm h := (h.next _ hm).of_reaches h.reached
  holds_of_fresh h := h.toPast
  putBack h hr := h.putBack hr
  unexpected _ _ := trivial
  misuse _ _ := trivial
  outOfRounds := trivial

namespace Reading

variable {α : Type} {e : Cursor} {r : Reader} {mode : Mode}

/-- Any reader of the grammar goes forward. -/
theorem Keeps.goes {x : Reading α} (h : ∀ I, Keeps I x) (hr : r.Past e) :
    Sat x r (fun _ r' => r'.Past r.edge) fun _ => True :=
  h (past r.edge) r ⟨hr.edge_whole, .refl _, hr.rounds, hr.queue⟩

end Reading

end ProtoIdl
