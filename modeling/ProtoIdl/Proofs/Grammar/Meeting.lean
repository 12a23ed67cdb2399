import ProtoIdl.Proofs.Grammar.Coupled
/-!
# Reading two texts side by side

Where two texts are alike up to a seam, a reader of the one and a reader of the other that have met do
the same: `Seam.coupling`, which is lawful (`Seam.lawful`) and follows the grammar (`Seam.follows`).
The left reader gets lost if it reads a part of the tail and does not stop behind the character that
the tail starts with: then it has read a string or a comment that reaches over this character.
-/
namespace ProtoIdl.Seam

open Reading Grammar

/-! ## The left reader alone -/

/-- The left reader has read over the start of the tail, or is about to. -/
structure Lost (s : Seam) (r : Reader) : Prop where
  stands : r.Stands
  tail_ne : s.tail ≠ []
  off : r.mark.rest ≠ s.tail
  beyond : s.Gone r.edge ∨ r.edge = r.mark ∧ r.mark.Unclosed

/-- The left reader has just read what begins behind the start of the tail, or an unclosed comment. -/
structure Strayed (s : Seam) (r : Reader) : Prop where
  stands : r.Stands
  tail_ne : s.tail ≠ []
  beyond : s.Gone r.mark ∨ r.mark.Unclosed ∧ r.edge.rest = []

variable {s : Seam} {r r' q : Reader} {m : Mode}

theorem Gone.rest_ne {c : Cursor} (h : s.Gone c) : c.rest ≠ s.tail := by
  intro heq
  rw [Gone, heq] at h
  exact absurd h (Nat.lt_irrefl _)

/-- No unclosed comment starts where the tail does. -/
theorem unclosed_off {c : Cursor} (h : c.Unclosed) (ht : s.tail ≠ []) : c.rest ≠ s.tail := by
  obtain ⟨x, rest, hx⟩ := List.exists_cons_of_ne_nil ht
  intro heq
  obtain rfl := h.head_eq (heq.trans hx)
  exact absurd (s.stop _ _ hx) (by decide)

theorem Strayed.lost (h : s.Strayed r) : s.Lost r where
  stands := h.stands
  tail_ne := h.tail_ne
  off := h.beyond.elim Gone.rest_ne fun h' => unclosed_off h'.1 h.tail_ne
  beyond := .inl <| h.beyond.elim h.stands.reached.gone fun h' => by
    rw [Gone, h'.2]
    exact List.length_pos_iff.2 h.tail_ne

theorem Lost.next (h : s.Lost r) (hm : m.comments = false) : s.Strayed (r.next m) := by
  refine ⟨h.stands.next m, h.tail_ne, ?_⟩
  obtain ⟨t, ts, d, e, hf, hr⟩ := h.stands.next_finds hm
  rw [hr, Reader.mark_after, Reader.edge_after]
  rcases h.beyond with hgone | ⟨hedge, t', e', hl⟩
  · exact .inl (hf.passes.reaches.gone hgone)
  · rw [hedge] at hf
    obtain ⟨-, -, rfl, rfl⟩ := hf.unique (.unclosed hl)
    obtain ⟨hd, he⟩ := hl.unclosed_mark h.stands.whole
    exact .inr ⟨hd, he⟩

theorem Strayed.putBack (h : s.Strayed r) (hr : r.putBack = .ok r') : s.Lost r' := by
  have hstands := h.stands.putBack hr
  obtain ⟨hedge, hmark, -⟩ := Reader.putBack_places hr
  refine ⟨hstands, h.tail_ne, ?_, ?_⟩
  · rw [hmark]
    exact h.lost.off
  · rw [hedge, hmark]
    exact h.beyond.imp_right fun h' => ⟨rfl, h'.1⟩

/-- From there the left reader does not come back. -/
def lost (s : Seam) : Invariant where
  holds := s.Lost
  fresh := s.Strayed
  failure _ := True
  next hm h := h.next hm
  holds_of_fresh h := h.lost
  putBack h hr := h.putBack hr
  unexpected _ _ := trivial
  misuse _ _ := trivial
  outOfRounds := trivial

/-! ## Both readers -/

/-- The readers stand at the same place. The left one is in front of the tail, or behind the character
that the tail starts with. -/
structure Meets (s : Seam) (b : Bool) (r r' : Reader) : Prop where
  stands : r.Stands
  edge : r'.edge = s.right r.edge
  mark : r'.mark = s.right r.mark
  apart : s.Leaves r.edge ∨ s.tail ≠ [] ∧ r.mark.rest = s.tail ∧ r.edge = r.mark.advance 1
  pending : r'.stream.pending = r.stream.pending.map (Token.move s.move)
  rounds : r.stream.rounds ≤ r'.stream.rounds
  margin : r.mark.rest.length + s.more.length < r'.stream.rounds
  token : b = true → r'.token = r.token.move s.move

/-- The relation of readers that have met. -/
def coupling (s : Seam) : Coupling where
  move := s.move
  rel := s.Meets
  lost := s.lost
  fails _ _ := True

variable {b : Bool} {t : Token} {ts : List Token} {d e : Cursor}

theorem Meets.edge_rounds (h : s.Meets b r r') : r'.edge.rest.length < r'.stream.rounds := by
  have hle := h.stands.reached.length_le
  have hlt := h.margin
  rw [h.edge, right, List.length_append]
  omega

/-- The left token is on the right as well. -/
theorem Meets.matched (h : s.Meets b r r') (hf : r.edge.Finds m t ts d e) (hd : s.Leaves d)
    (he : s.Leaves e ∨ s.tail ≠ [] ∧ d.rest = s.tail ∧ e = d.advance 1) :
    s.coupling.Matched b (r.after t ts d e)
      (r'.after (t.move s.move) (ts.map (Token.move s.move)) (s.right d) (s.right e)) := by
  have hreach := hf.passes.reaches
  have hpending : r'.stream.pending ++ ts.map (Token.move s.move) =
      (r.stream.pending ++ ts).map (Token.move s.move) := by
    rw [h.pending, List.map_append]
  have hmargin : d.rest.length + s.more.length < r'.stream.rounds := by
    have hle := (h.stands.reached.trans hreach).length_le
    have hlt := h.margin
    omega
  refine ⟨rfl, fun _ => ?_, ?_⟩
  · exact ⟨h.stands.after hreach hf.found.reaches, rfl, rfl, he, hpending, h.rounds, hmargin,
      fun _ => rfl⟩
  · exact ⟨_, _, Reader.putBack_after, Reader.putBack_after, h.stands.looked hreach, rfl, rfl,
      .inl hd, hpending, h.rounds, hmargin, h.token⟩

/-- The left reader strays; or both read the same token; or the left one reads a string that reaches
over the start of the tail, or would be one. -/
theorem Meets.next_cases (h : s.Meets b r r') (hm : m.comments = false) :
    s.Strayed (r.next m) ∨ s.coupling.Matched b (r.next m) (r'.next m) ∨
      s.Lost (r.next m) ∧ (∃ x more, (r.next m).mark.rest = x :: more ∧ Scan.isQuote x = true) ∧
        m.strings = true ∧
        ((r.next m).token.kind = .stringLit ∨ (r.next m).token.kind = .illegal) := by
  obtain ⟨t, ts, d, e, hf, hr⟩ := h.stands.next_finds hm
  have hreach := hf.passes.reaches
  have hstray (hgone : s.Gone d) : s.Strayed (r.next m) := by
    refine ⟨h.stands.next m, ?_, .inl ?_⟩
    · rintro htail
      rw [Gone, htail] at hgone
      exact absurd hgone (Nat.not_lt_zero _)
    · rwa [hr]
  have hmatch (hd : s.Leaves d) (he : s.Leaves e ∨ s.tail ≠ [] ∧ d.rest = s.tail ∧ e = d.advance 1)
      (hf' : (s.right r.edge).Finds m (t.move s.move) (ts.map (Token.move s.move)) (s.right d)
        (s.right e)) : s.coupling.Matched b (r.next m) (r'.next m) := by
    rw [hr, Reader.next_of_finds hm (h.edge ▸ hf') h.edge_rounds]
    exact h.matched hf hd he
  rcases h.apart with hleaves | ⟨htail, hmark, hedge⟩
  · rcases hreach.gone_or_leaves hleaves with hgone | hd
    · exact .inl (hstray hgone)
    rcases hf.crosses h.stands.edge_whole hd with hl | ⟨hf', he⟩ | ⟨hgone, hoff, hquote, hs, hk⟩
    · by_cases htail : s.tail = []
      · have he : s.Leaves e := by
          rw [Leaves, htail]
          exact List.nil_suffix
        exact .inr (.inl (hmatch hd (.inl he) (hf.right h.stands.edge_whole he)))
      · refine .inl ⟨h.stands.next m, htail, .inr ?_⟩
        rw [hr]
        exact hl.unclosed_mark h.stands.edge_whole
    · exact .inr (.inl (hmatch hd he hf'))
    · refine .inr (.inr ?_)
      have htail : s.tail ≠ [] := by
        intro htail
        rw [Gone, htail] at hgone
        exact absurd hgone (Nat.not_lt_zero _)
      rw [hr]
      exact ⟨⟨h.stands.after hreach hf.found.reaches, htail, hoff, .inl hgone⟩, hquote, hs, hk⟩
  · refine .inl (hstray (hreach.gone ?_))
    rw [Gone, hedge, Cursor.rest_advance, hmark, List.length_drop]
    have := List.length_pos_iff.2 htail
    omega

theorem lawful (s : Seam) : s.coupling.Lawful where
  offset_lt _ _ _ := Position.shift_offset_lt
  line_lt _ _ _ := Position.shift_line_lt
  relax h := ⟨h.stands, h.edge, h.mark, h.apart, h.pending, h.rounds, h.margin, nofun⟩
  stands h := h.stands
  rounds h := .inr (Nat.add_le_add_right h.rounds 4)
  token h := h.token rfl
  pending h := h.pending
  bare hl := hl.elim
  setPending ts _ h :=
    ⟨h.stands.setQueue ts, h.edge, h.mark, h.apart, rfl, h.rounds, h.margin, h.token⟩
  next hm h hq := by
    rcases h.next_cases hm with hstrayed | hmatched | ⟨-, -, hs, hk⟩
    · exact .inl hstrayed
    · exact .inr hmatched
    · rcases hq with hq | ⟨hi, hs'⟩
      · exact absurd hs (by rw [(Mode.isQuiet_iff.1 hq).1]; nofun)
      · exact absurd hk (by simp [hi, hs'])
  string hm h hk := by
    rcases h.next_cases hm with hstrayed | hmatched | ⟨hlost, -⟩
    · exact .inl hstrayed.lost
    · exact .inr (hmatched.keep (hk ▸ nofun))
    · exact .inl hlost
  refused _ _ _ := trivial
  outOfRounds _ := trivial
  loose_fails _ _ := False.elim
  queueless _ ts h := ⟨h.stands.setQueue ts, h.tail_ne, h.off, h.beyond⟩
  lost_unexpected _ _ := trivial
  lost_fails _ _ := trivial

/-- A string that reaches over the start of the tail, or would be one, is reserved as a name, or it is
refused because it is no range. -/
theorem Lost.reservedItem (h : s.Lost (r.next .string)) (hstands : r.Stands) {x : Char}
    {more : List Char} (hd : (r.next .string).mark.rest = x :: more) (hx : Scan.isQuote x = true)
    (hk : (r.next .string).token.kind = .stringLit ∨ (r.next .string).token.kind = .illegal) :
    Sat reservedItem r (fun _ r' => s.Lost r') fun _ => True := by
  obtain ⟨t, ts, d, e, hf, hr⟩ := hstands.next_finds (m := .string) rfl
  have hq : (r.looked t ts d).Stands := hstands.looked hf.passes.reaches
  rw [hr] at h hd
  have hback : (r.next .string).putBack = .ok (r.looked t ts d) := hr ▸ Reader.putBack_after
  refine sat_run_bind (run_peek hback) ?_
  rcases hk with hk | hk
  · have hagain := Reader.next_of_finds rfl (hf.at_mark hstands.edge_whole) hq.edge_rounds
    rw [reservedAs, if_pos hk]
    refine (sat_reservedNames (I := s.lost) ?_ ?_).bind fun _ _ hr => sat_pure hr
    · rw [hagain]
      rwa [hr] at hk
    · rw [hagain]
      exact ⟨hq.after (.refl d) hf.found.reaches, h.tail_ne, h.off, h.beyond⟩
  · have hranges : Sat ranges (r.looked t ts d) (fun _ _ => False) fun _ => True :=
      sat_of_error (run_ranges_quote hstands hf hd hx) trivial
    rw [reservedAs, if_neg (by rw [hk]; nofun)]
    exact .bind_of_fails hranges

theorem follows (s : Seam) : s.coupling.Follows where
  toLawful := s.lawful
  reserved {r r'} hr _ := by
    have hP := s.lawful
    rcases hr.next_cases (m := .string) rfl with hstrayed | hmatched | ⟨h, ⟨x, more, hd, hx⟩, -, hk⟩
    · have hpeek : Sat (peek .string) r (fun _ r' => s.lost.holds r') s.lost.failure :=
        sat_run_bind (run_next .string r) (heeds_putBack_bind (fun _ => keeps_pure _) _ hstrayed)
      exact outcome_of_sat hP (hpeek.bind fun k r hr => (couples_reservedAs hP k).1 r hr)
    · obtain ⟨q, q', hback, hback', hqq⟩ := hmatched.putBack
      rw [reservedItem, run_bind (run_peek hback), run_bind (run_peek hback'),
        hmatched.token, Token.kind_move]
      exact (couples_reservedAs hP _).2 q q' hqq
    · exact outcome_of_sat hP (h.reservedItem hr.stands hd hx hk)

end ProtoIdl.Seam
