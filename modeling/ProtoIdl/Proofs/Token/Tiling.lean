import ProtoIdl.Proofs.Token.Stream
import ProtoIdl.Proofs.Token.Verbatim
/-!
# Tokens and comments tile a text

What scans hand out and what they queue are the parts of the text, one behind the other, and between
them is white space (`Cursor.Tiles`). So nothing is lost and nothing is read twice, whatever the modes
are. It holds up to the first token that carries an error; comments that are passed over in front of it
are in their places too. Main statement: `scans_tile`.
-/
namespace ProtoIdl

/-- The part of a text that a token was read from. -/
structure Region where
  token : Token
  start : Cursor
  finish : Cursor

/-- The token stands at the start of its region, which is not empty but at the end of the text. It is
what stands in the region, unless it is a string. -/
structure Region.Sound (r : Region) : Prop where
  position : r.token.position = r.start.position
  reaches : r.start.Reaches r.finish
  verbatim : r.token.kind ≠ .stringLit → r.start.Covers r.token.text.toList r.finish
  atEnd : r.token.kind = .eof → r.start.rest = []
  offset_lt : r.token.kind ≠ .eof → r.start.position.offset < r.finish.position.offset

namespace Cursor

/-- From `c` to `d` there are the regions, in this order, and white space. -/
def Tiles : Cursor → List Region → Cursor → Prop
  | c, [], d => c.Spaces d
  | c, r :: rs, d => c.Spaces r.start ∧ r.Sound ∧ Tiles r.finish rs d

variable {c d e : Cursor} {rs qs : List Region}

theorem Tiles.after (h : c.Spaces d) (hd : d.Tiles rs e) : c.Tiles rs e := by
  cases rs with
  | nil => exact h.trans hd
  | cons r rs => exact ⟨h.trans hd.1, hd.2⟩

theorem Tiles.append (h : c.Tiles rs d) (hd : d.Tiles qs e) : c.Tiles (rs ++ qs) e := by
  induction rs generalizing c with
  | nil => exact hd.after h
  | cons r rs ih => exact ⟨h.1, h.2.1, ih h.2.2⟩

theorem Tiles.reaches (h : c.Tiles rs d) : c.Reaches d := by
  induction rs generalizing c with
  | nil => exact Spaces.reaches h
  | cons r rs ih => exact (h.1.reaches.trans h.2.1.reaches).trans (ih h.2.2)

/-- Every region lies between the two places. -/
theorem Tiles.mem (h : c.Tiles rs d) : ∀ r ∈ rs, r.Sound ∧ c.Reaches r.start ∧ r.finish.Reaches d := by
  induction rs generalizing c with
  | nil => exact List.forall_mem_nil _
  | cons q rs ih =>
    obtain ⟨hskip, hsound, hrest⟩ := h
    refine List.forall_mem_cons.2 ⟨⟨hsound, hskip.reaches, hrest.reaches⟩, fun r hr => ?_⟩
    obtain ⟨hr, hstart, hfinish⟩ := ih hrest r hr
    exact ⟨hr, (hskip.reaches.trans hsound.reaches).trans hstart, hfinish⟩

/-- The regions are disjoint, and come one behind the other. -/
theorem Tiles.pairwise (h : c.Tiles rs d) :
    rs.Pairwise fun a b => a.finish.position.offset ≤ b.start.position.offset := by
  induction rs generalizing c with
  | nil => exact .nil
  | cons q rs ih =>
    refine .cons (fun r hr => ?_) (ih h.2.2)
    exact (h.2.2.mem r hr).2.1.offset_le

/-- A character behind `c` is one of those up to `d`, or it is behind `d`. -/
theorem Covers.cases {w more : List Char} {x : Char} {k : Cursor} (h : c.Covers w d)
    (hk : c.Reaches k) (hx : k.rest = x :: more) : x ∈ w ∨ d.Reaches k := by
  obtain ⟨rfl, hw⟩ := h
  obtain ⟨n, rfl⟩ := hk
  by_cases hn : n < w.length
  · rw [rest_advance, hw, List.drop_append_of_le_length (Nat.le_of_lt hn)] at hx
    rw [List.drop_eq_getElem_cons hn] at hx
    exact .inl ((List.cons.inj hx).1 ▸ List.getElem_mem hn)
  · refine .inr ⟨n - w.length, ?_⟩
    rw [← advance_add]
    congr 1
    omega

theorem Reaches.total {k : Cursor} (h : c.Reaches d) (hk : c.Reaches k) :
    d.Reaches k ∨ k.Reaches d := by
  obtain ⟨m, rfl⟩ := h
  obtain ⟨n, rfl⟩ := hk
  rcases Nat.le_total m n with hmn | hmn
  · exact .inl ⟨n - m, by rw [← advance_add, Nat.add_sub_cancel' hmn]⟩
  · exact .inr ⟨m - n, by rw [← advance_add, Nat.add_sub_cancel' hmn]⟩

/-- A character that does not lie in front of a place is behind it. -/
theorem Reaches.of_offset_le {more : List Char} {x : Char} {k : Cursor} (h : c.Reaches d)
    (hk : c.Reaches k) (hx : k.rest = x :: more) (hle : d.position.offset ≤ k.position.offset) :
    d.Reaches k := by
  rcases h.total hk with h | ⟨n, rfl⟩
  · exact h
  · cases n with
    | zero => exact ⟨0, by simp⟩
    | succ n =>
      have hlt := offset_lt_advance (n := n + 1) (Nat.succ_pos n) (by rw [hx]; nofun)
      omega

/-- A character between the two places is white space, or it is in one of the regions. -/
theorem Tiles.covered {more : List Char} {x : Char} {k : Cursor} (h : c.Tiles rs d)
    (hk : c.Reaches k) (hx : k.rest = x :: more) (hlt : k.position.offset < d.position.offset) :
    Scan.isBlank x = true ∨ ∃ r ∈ rs, r.start.position.offset ≤ k.position.offset ∧
      k.position.offset < r.finish.position.offset := by
  induction rs generalizing c with
  | nil =>
    obtain ⟨w, hblank, hw⟩ := h
    rcases hw.cases hk hx with hmem | hd
    · exact .inl (List.all_eq_true.1 hblank x hmem)
    · have := hd.offset_le
      omega
  | cons r rs ih =>
    obtain ⟨⟨w, hblank, hw⟩, hsound, hrest⟩ := h
    rcases hw.cases hk hx with hmem | hstart
    · exact .inl (List.all_eq_true.1 hblank x hmem)
    by_cases hin : k.position.offset < r.finish.position.offset
    · exact .inr ⟨r, List.mem_cons_self, hstart.offset_le, hin⟩
    · have hfinish := hsound.reaches.of_offset_le hstart hx (by omega)
      refine (ih hrest hfinish).imp_right ?_
      rintro ⟨q, hq, hcover⟩
      exact ⟨q, List.mem_cons_of_mem r hq, hcover⟩

end Cursor

/-! ## One scan -/

theorem Token.Comments.error_eq {c d : Cursor} {t : Token} (h : t.Comments c d) : t.error = none := by
  obtain ⟨n, text, -, -, -, rfl⟩ := h
  rfl

/-- A token without an error has the region from its start to where the next one is looked for. -/
theorem Scan.token_sound {mode : Mode} {c d : Cursor} {t : Token} (ht : token mode c = .ok (t, d))
    (he : t.error = none) : (Region.mk t c d).Sound := by
  have hverbatim (hk : t.kind ≠ .stringLit) : c.Covers t.text.toList d := by
    obtain ⟨w, htext, hw⟩ := (token_verbatim mode c).ok ht hk he
    rw [htext]
    exact hw
  cases (token_found mode c).ok ht with
  | lexed hc hd hl =>
    have hposition : t.position = c.position := by
      rcases hl.place with ⟨-, hp⟩ | ⟨-, -, fault, hf⟩
      · exact hp
      · exact absurd (he.symm.trans hf) (Option.some_ne_none _).symm
    have hlt := Cursor.offset_lt_advance Nat.one_pos hc
    have hle := hd.offset_le
    exact ⟨hposition, (c.reaches_advance 1).trans hd, hverbatim, fun hk => absurd hk hl.ne_eof,
      fun _ => Int.lt_of_lt_of_le hlt hle⟩
  | eof hc hd hl =>
    subst hd hl
    exact ⟨rfl, .refl _, hverbatim, fun _ => hc, fun hk => absurd rfl hk⟩

/-- So has a comment; what is left out at its end is white space. -/
theorem Scan.comment_sound {c d : Cursor} {t : Token} (hc : OpensComment c.rest)
    (ht : comment c = .ok (t, d)) (he : t.error = none) :
    t.kind = .comment ∧ ∃ e, (Region.mk t c e).Sound ∧ e.Spaces d := by
  obtain ⟨hk, hposition, hne, e, hcover, hskip⟩ := (comment_verbatim hc).ok ht he
  refine ⟨hk, e, ⟨hposition, hcover.reaches, fun _ => hcover, ?_, fun _ => ?_⟩, hskip⟩
  · intro h
    rw [hk] at h
    cases h
  · obtain ⟨x, more, hr, -⟩ := hc
    rw [hcover.1]
    exact Cursor.offset_lt_advance (List.length_pos_iff.2 hne) (by rw [hr]; nofun)

/-- What is passed over in front of a token are comments in their places; so is a comment that is handed
out itself. -/
theorem Source.lead_tiles (mode : Mode) (rounds : Nat) (passed : List Token) (s : Source) :
    ∃ rs d, (s.lead mode rounds passed).2.1 = passed ++ rs.map Region.token ∧
      (∀ r ∈ rs, r.token.kind = .comment) ∧ s.current.Tiles rs d ∧
      ((s.lead mode rounds passed).1 = .clear → (s.lead mode rounds passed).2.2.current = d) ∧
      ∀ t, (s.lead mode rounds passed).1 = .token t → t.error = none → t.kind = .comment ∧
        ∃ r : Region, r.token = t ∧ d.Tiles [r] (s.lead mode rounds passed).2.2.current := by
  induction rounds generalizing s passed with
  | zero =>
    rw [Source.lead]
    exact ⟨[], s.current, by simp, by simp, Cursor.Spaces.refl _, by simp, by simp⟩
  | succ rounds ih =>
    rw [Source.lead]
    rcases take_cases (Scan.gap_ends s.current) with ⟨b, d, hg, hd, hb⟩ | ⟨e, hg, he⟩
    · have hskip : s.current.Spaces d :=
        ⟨_, List.all_takeWhile, hd ▸ Cursor.covers_of_prefix (List.takeWhile_prefix _)⟩
      rw [hg]
      cases b with
      | false => exact ⟨[], d, by simp, by simp, hskip, fun _ => rfl, by simp⟩
      | true =>
        have hopen : Scan.OpensComment d.rest := hb.1 rfl
        dsimp only
        rw [take, current_mark, current_moveTo]
        rcases ht : Scan.comment d with e | ⟨t, e⟩
        · refine ⟨[], d, by simp, by simp, hskip, by simp, ?_⟩
          rintro _ ⟨⟩
          exact fun herror => absurd herror (Option.some_ne_none e)
        dsimp only
        split
        · refine ⟨[], d, by simp, by simp, hskip, by simp, ?_⟩
          rintro _ ⟨⟩ herror
          obtain ⟨hk, a, hsound, hrest⟩ := Scan.comment_sound hopen ht herror
          exact ⟨hk, ⟨t, d, a⟩, rfl, .refl d, hsound, hrest⟩
        · next hk =>
          have hk : t.kind ≠ .illegal := fun h => hk (by simp [h])
          obtain ⟨-, hcomment⟩ :=
            (Scan.comment_ok hopen ht).resolve_right fun h => hk (by rw [h.1]; rfl)
          obtain ⟨hk, a, hsound, hrest⟩ := Scan.comment_sound hopen ht hcomment.error_eq
          obtain ⟨rs, b, hpassed, hkinds, htiles, hclear, htoken⟩ :=
            ih (passed ++ [t]) ((s.moveTo d).mark.moveTo e)
          refine ⟨⟨t, d, a⟩ :: rs, b, ?_, List.forall_mem_cons.2 ⟨hk, hkinds⟩, ?_, hclear, htoken⟩
          · rw [hpassed, List.append_assoc, List.map_cons, List.singleton_append]
          · exact ⟨hskip, hsound, htiles.after hrest⟩
    · rw [hg]
      refine ⟨[], s.current, by simp, by simp, Cursor.Spaces.refl _, by simp, ?_⟩
      rintro _ ⟨⟩
      exact fun herror => absurd herror (Option.some_ne_none e)

/-- A scan goes on behind what was read before: comments it passes over, and its token unless that
carries an error. -/
theorem TokenStream.scan_tiles (mode : Mode) (s : TokenStream) :
    ∃ rs d, (s.scan mode).2.pending = s.pending ++ rs.map Region.token ∧
      (∀ r ∈ rs, r.token.kind = .comment) ∧ s.source.current.Tiles rs d ∧
      ((s.scan mode).1.error = none → ∃ r : Region, r.token = (s.scan mode).1 ∧
        d.Tiles [r] (s.scan mode).2.source.current ∧
        (r.token.kind = .stringLit → r.finish = (s.scan mode).2.source.current)) := by
  obtain ⟨rs, d, hpassed, hkinds, htiles, hclear, htoken⟩ :=
    Source.lead_tiles mode s.rounds [] s.source
  unfold TokenStream.scan
  generalize s.source.lead mode s.rounds [] = r at hpassed hclear htoken ⊢
  obtain ⟨lead, passed, source⟩ := r
  dsimp only at hpassed hclear htoken ⊢
  refine ⟨rs, d, congrArg _ hpassed, hkinds, htiles, ?_⟩
  cases lead with
  | token t =>
    intro herror
    obtain ⟨hk, r, rfl, hr⟩ := htoken t rfl herror
    refine ⟨r, rfl, hr, fun h => ?_⟩
    rw [hk] at h
    cases h
  | clear =>
    obtain rfl := hclear rfl
    dsimp only
    rw [Source.take, Source.current_mark]
    rcases ht : Scan.token mode source.current with e | ⟨t, e⟩
    · exact fun herror => absurd herror (Option.some_ne_none e)
    · intro herror
      exact ⟨⟨t, source.current, e⟩, rfl, ⟨.refl _, Scan.token_sound ht herror, .refl e⟩,
        fun _ => rfl⟩

/-! ## Scan after scan -/

namespace TokenStream

/-- The tokens that scans under these modes hand out, each with the place its scan ends at, and the
stream they leave. Scanning stops at a token that carries an error, which is left out. -/
def scans : List Mode → TokenStream → List (Token × Cursor) × TokenStream
  | [], s => ([], s)
  | mode :: modes, s =>
    let (t, s) := s.scan mode
    if t.error.isSome then ([], s)
    else
      let (ts, s') := scans modes s
      ((t, s.source.current) :: ts, s')

/-- The scans read one region behind the other: one for each token handed out, and one for each comment
that was queued meanwhile. -/
theorem scans_tiles (modes : List Mode) (s : TokenStream) :
    ∃ rs queued d, (s.scans modes).2.pending = s.pending ++ queued ∧
      (rs.map Region.token).Perm ((s.scans modes).1.map (·.1) ++ queued) ∧
      s.source.current.Tiles rs d ∧
      (∀ r ∈ rs, r.token.kind = .stringLit → (r.token, r.finish) ∈ (s.scans modes).1) ∧
      ((s.scans modes).1.length = modes.length → d = (s.scans modes).2.source.current) := by
  induction modes generalizing s with
  | nil =>
    exact ⟨[], [], s.source.current, (List.append_nil _).symm, .refl _, Cursor.Spaces.refl _, by simp,
      fun _ => rfl⟩
  | cons mode modes ih =>
    obtain ⟨rs, d, hpending, hkinds, htiles, htoken⟩ := s.scan_tiles mode
    have hstring {r : Region} (hr : r ∈ rs) : r.token.kind ≠ .stringLit := by
      rw [hkinds r hr]
      nofun
    rw [scans]
    generalize s.scan mode = y at hpending htoken ⊢
    obtain ⟨t, s'⟩ := y
    dsimp only at hpending htoken ⊢
    split
    · exact ⟨rs, rs.map Region.token, d, hpending, .refl _, htiles,
        fun r hr hk => absurd hk (hstring hr), nofun⟩
    · next herror =>
      obtain ⟨r, rfl, hr, hfinish⟩ := htoken (by simpa using herror)
      obtain ⟨qs, queued, e, hpending', hperm, htiles', hstrings, hend⟩ := ih s'
      refine ⟨rs ++ (r :: qs), rs.map Region.token ++ queued, e, ?_, ?_,
        htiles.append (hr.append htiles'), ?_, fun hlen => hend ?_⟩
      · rw [hpending', hpending, List.append_assoc]
      · rw [List.map_append, List.map_cons, List.map_cons, List.cons_append]
        refine List.perm_middle.trans (.cons r.token ?_)
        exact (hperm.append_left (rs.map Region.token)).trans (List.perm_append_comm_assoc _ _ _)
      · intro q hq hk
        rcases List.mem_append.1 hq with hq | hq
        · exact absurd hk (hstring hq)
        · rcases List.mem_cons.1 hq with rfl | hq
          · rw [hfinish hk]
            exact List.mem_cons_self
          · exact List.mem_cons_of_mem _ (hstrings q hq hk)
      · simpa using hlen

/-- **Scanning loses and duplicates nothing.** Whatever the modes are, up to a token that carries an
error: the tokens handed out and the comments queued are read from regions of the text that lie one
behind the other, each token is what stands in its region (`Region.Sound`; a string's region ends where
its scan ends, and the end of the text comes behind all characters), and a character that is in none of
the regions is white space. -/
theorem scans_tile (chars : List Char) (file : String) (modes : List Mode) :
    let run := (ofBytes (Utf8.encode chars) file).scans modes
    ∃ rs : List Region,
      (rs.map Region.token).Perm (run.1.map (·.1) ++ run.2.pending) ∧
      (rs.Pairwise fun a b => a.finish.position.offset ≤ b.start.position.offset) ∧
      (∀ r ∈ rs, (Cursor.ofBytes (Utf8.encode chars) file).Reaches r.start ∧ r.Sound ∧
        (r.token.kind = .stringLit → (r.token, r.finish) ∈ run.1)) ∧
      ∀ before x after, chars = before ++ x :: after →
        ((∃ r ∈ rs, (Utf8.encode before).length < r.finish.position.offset) ∨
          run.1.length = modes.length ∧
            (Utf8.encode before).length < run.2.source.current.position.offset) →
        Scan.isBlank x = true ∨ ∃ r ∈ rs, r.start.position.offset ≤ (Utf8.encode before).length ∧
          (Utf8.encode before).length < r.finish.position.offset := by
  obtain ⟨rs, queued, d, hpending, hperm, htiles, hstrings, hend⟩ :=
    (ofBytes (Utf8.encode chars) file).scans_tiles modes
  obtain rfl : _ = queued := hpending
  have htiles : (Cursor.ofBytes (Utf8.encode chars) file).Tiles rs d := htiles
  refine ⟨rs, hperm, htiles.pairwise, fun r hr => ?_, ?_⟩
  · obtain ⟨hsound, hstart, -⟩ := htiles.mem r hr
    exact ⟨hstart, hsound, hstrings r hr⟩
  rintro before x after rfl hin
  have hoffset : ((Cursor.ofBytes (Utf8.encode (before ++ x :: after)) file).advance
      before.length).position.offset = (Utf8.encode before).length := by
    rw [Cursor.offset_advance, Cursor.ofBytes_encode, List.take_left, Position.first]
    exact Int.zero_add _
  have hrest : ((Cursor.ofBytes (Utf8.encode (before ++ x :: after)) file).advance
      before.length).rest = x :: after := by
    rw [Cursor.rest_advance, Cursor.ofBytes_encode, List.drop_left]
  have hlt : ((Utf8.encode before).length : Int) < d.position.offset := by
    rcases hin with ⟨r, hr, hlt⟩ | ⟨hlen, hlt⟩
    · exact Int.lt_of_lt_of_le hlt (htiles.mem r hr).2.2.offset_le
    · rwa [hend hlen]
  have hcovered := htiles.covered (Cursor.reaches_advance _ before.length) hrest
    (hoffset.symm ▸ hlt)
  rwa [hoffset] at hcovered

end TokenStream

end ProtoIdl
