import ProtoIdl.Proofs.Grammar.Head
import Mathlib.Data.List.Pairwise
import Mathlib.Data.List.TakeWhile
/-!
# How declarations are laid out

Comments are claimed from a queue that is filled whenever a token is read. `Reader.Waits` says that
what is queued is behind a given place, `DeclarationRead` that a declaration was read with its parts
and the comments in it in their slots, and `BodyRead` the same of what is between two curlies. What
reads a declaration reads a statement, or a head with a body or a semicolon behind it
(`Grammar.declaration_sat`). Main statements: `Grammar.declaration_gives` and `Grammar.attach_gives`.
-/
namespace ProtoIdl

/-! ## Comments -/

theorem Token.Comments.lies {c d e : Cursor} {t : Token} (hc : c.Reaches d) (h : t.Comments d e) :
    (Comment.ofToken t).Lies c d.position.offset e.position.offset := by
  obtain ⟨n, text, h2, hn, rfl, rfl⟩ := h
  have hd : d.Reaches (d.advance (n - 1)) := d.reaches_advance (n - 1)
  have hne : (d.advance (n - 1)).rest ≠ [] := by
    rw [Cursor.rest_advance]
    exact List.ne_nil_of_length_pos (by rw [List.length_drop]; omega)
  have hlt := Cursor.offset_lt_advance Nat.one_pos hne
  rw [← Cursor.advance_add, Nat.sub_add_cancel (by omega)] at hlt
  exact ⟨⟨d, hc, rfl⟩, ⟨_, hc.trans hd, rfl⟩, Int.le_refl _, hd.offset_le, hlt⟩

/-- Comments passed over are a row. -/
theorem Passes.row {c d e : Cursor} {ts : List Token} (hc : c.Reaches d) (h : Passes d ts e) :
    Row c d.position.offset e.position.offset (ts.map Comment.ofToken) := by
  induction h with
  | nil h => exact ⟨by simp, .nil⟩
  | cons hb ht hts ih =>
    have hrow := ih ((hc.trans hb).trans ht.reaches)
    have hlies := ht.lies (hc.trans hb)
    have hle := hts.reaches.offset_le
    refine ⟨List.forall_mem_cons.2 ⟨hlies.mono hb.offset_le hle, fun k hk => ?_⟩,
      List.pairwise_cons.2 ⟨fun k hk => ?_, hrow.sorted⟩⟩
    · exact (hrow.lies k hk).mono (hb.offset_le.trans ht.reaches.offset_le) (le_refl _)
    · exact hlies.lt_hi.trans_le (hrow.lies k hk).lo_le

/-- The comments queued are those behind some place that is not in front of `lo`. -/
def Reader.Waits (c : Cursor) (lo : Int) (r : Reader) : Prop :=
  ∃ d, c.Reaches d ∧ lo ≤ d.position.offset ∧ Passes d r.stream.pending r.edge

namespace Grammar

open Reading

variable {c e : Cursor} {r : Reader}

/-- Looking at the next token queues the comments in front of it. -/
theorem peek_passes {mode : Mode} (hm : mode.comments = false) (hr : r.Past e) :
    Gives (peek mode) r fun k r' => r'.Past r.edge ∧
      ∃ t ts e', r'.stream.pending = r.stream.pending ++ ts ∧ k = t.kind ∧
        r.edge.Finds mode t ts r'.edge e' := by
  refine (next_sat mode).bind ?_
  rintro k _ ⟨hk, rfl⟩
  obtain ⟨ts, hts, hf⟩ := hr.finds mode hm
  refine (putBack_gives hm hr).bind ?_
  rintro _ r' ⟨hp, -, hedge, hpending⟩
  exact sat_pure ⟨hp, _, ts, _, hpending.trans hts, hk, hedge ▸ hf⟩

theorem Past.setPending {ts : List Token} (hr : r.Past e)
    (hts : ∀ t ∈ ts, t.position.offset < r.edge.position.offset) :
    Reader.Past e { r with stream := { r.stream with pending := ts } } :=
  ⟨hr.whole, hr.reached, hr.rounds, hts⟩

theorem commentsAhead_gives {d : Cursor} (hr : r.Past e) (hq : Passes d r.stream.pending r.edge) :
    Gives commentsAhead r fun ks r' => r'.Past r.edge ∧ r'.stream.pending = [] ∧
      ∃ ts, ks = ts.map Comment.ofToken ∧ Passes d ts r'.edge := by
  refine (peek_passes rfl hr).bind ?_
  rintro k r₁ ⟨hp, t, ts, e', hts, -, hf⟩
  refine pending_sat.bind ?_
  rintro _ _ ⟨rfl, rfl⟩
  refine (setPending_sat []).bind ?_
  rintro _ _ rfl
  exact sat_pure ⟨Past.setPending hp (by simp), rfl, _, rfl, hts ▸ hq.append hf.passes⟩

/-- The comment claimed behind a place starts on its line; those in front of it are dropped. -/
theorem commentBehind_gives {place : Position} (hr : r.Past e) (hc : c.Reaches r.edge)
    (hq : ∀ t ∈ r.stream.pending, t.position.offset < place.offset) :
    Gives (commentBehind place) r fun k? r' => r'.Past r.edge ∧
      ∃ d, r.edge.Reaches d ∧ Passes d r'.stream.pending r'.edge ∧
        ∀ k, k? = some k → k.extent.start.line = place.line ∧
          k.Lies c r.edge.position.offset d.position.offset := by
  refine pending_sat.bind ?_
  rintro _ r ⟨rfl, rfl⟩
  have hnil : (r.stream.pending.dropWhile fun t => t.position.offset < place.offset) = [] := by
    rw [List.dropWhile_eq_nil_iff]
    exact fun t ht => decide_eq_true (hq t ht)
  rw [hnil]
  refine (setPending_sat []).bind ?_
  rintro _ _ rfl
  refine (peek_passes rfl (Past.setPending hr (by simp))).bind ?_
  rintro _ r₁ ⟨hp, t, ts, e', hts, -, hf⟩
  refine pending_sat.bind ?_
  rintro _ r₁ ⟨rfl, rfl⟩
  have hpass : Passes r.edge ts r₁.edge := hf.passes
  rw [List.nil_append] at hts
  cases hpass with
  | nil h =>
    rw [hts]
    exact sat_pure ⟨hp, r₁.edge, h, hts ▸ .nil (.refl _), nofun⟩
  | @cons _ b d _ t ts hb ht hts' =>
    have hlies := (ht.lies (hc.trans hb)).mono hb.offset_le (le_refl _)
    have hpos : (Comment.ofToken t).extent.start = t.position := rfl
    rw [hts]
    dsimp only
    split
    · next hline =>
      refine (setPending_sat ts).bind ?_
      rintro _ _ rfl
      refine sat_pure ⟨Past.setPending hp fun u hu => ?_, d, hb.trans ht.reaches, hts', ?_⟩
      · exact hp.queue u (hts ▸ List.mem_cons_of_mem t hu)
      · rintro _ ⟨⟩
        exact ⟨hpos ▸ hline, hlies⟩
    · exact sat_pure ⟨hp, r.edge, .refl _, hts ▸ .cons hb ht hts', nofun⟩

/-! ## Declarations -/

/-- A declaration was read after `e`; the comments queued are in front of its end. -/
structure DeclarationRead (c e : Cursor) (el : Element) (r : Reader) : Prop extends r.Past e where
  declared : el.Declared c e.position.offset r.edge.position.offset
  behind : ∀ t ∈ r.stream.pending, t.position.offset < el.extent.last.offset
  stops : r.Stops e el.extent.last

/-- A body was read after `r`, from its opening curly at `p` on. -/
structure BodyRead (c : Cursor) (r : Reader) (b : Body) (r' : Reader) : Prop
    extends r'.Past r.edge where
  body : ∃ p lo hi, r.edge.HeadEnds .leftBrace p ∧ r.edge.Between r'.edge p ∧ p.offset < lo ∧
    hi ≤ b.last.offset ∧ Tidy c lo hi b.elements ∧
      ∀ k, b.behindCurly = some k → k.extent.start.line = p.line ∧ k.Lies c (p.offset + 1) lo
  last : r.edge.Between r'.edge b.last
  behind : ∀ t ∈ r'.stream.pending, t.position.offset < b.last.offset
  stops : r'.Stops r.edge b.last

/-- A head that starts at `start` was read, and the first character behind it is that of `r`. -/
structure HeadRead (c e : Cursor) (head : Head) (start : Position) (r : Reader) : Prop where
  started : ∃ d, e.Reaches d ∧ d.position = start ∧ r.HeadFrom d
  spot : e.Between r.edge start
  parts : ∀ m ∈ head.parts, m.All (Node.Sound c) ∧ start.offset ≤ m.extent.start.offset ∧
    m.extent.last.offset < r.edge.position.offset

theorem Notes.slotted_bare (x : Extent) : Notes.Slotted { extent := x } :=
  ⟨by simp, by simp, .nil, by simp⟩

/-- A statement whose parts are sound and inside it is a declaration. -/
theorem closed_declarationRead {α : Type} {wrap : α → Statement} {n : Noted α}
    (h : r.Closed e n.notes) (hc : c.Reaches e)
    (hparts : ∀ m ∈ (wrap n.item).parts, m.All (Node.Sound c) ∧
      n.notes.extent.start.offset ≤ m.extent.start.offset ∧
        m.extent.last.offset ≤ n.notes.extent.last.offset) :
    DeclarationRead c e (statement wrap n) r := by
  have hw := h.within
  have hcom : (statement wrap n).comments = [] := by
    rw [statement, Element.comments, h.bare]
    rfl
  refine ⟨h.toPast, ⟨congrArg some h.bare, .intro ⟨?_, ?_, hw.ordered, ?_, ?_⟩ ?_, hw.start.le,
    hw.last.lt, by simp [hcom], by simp [hcom]⟩, h.behind, h.stops⟩
  · exact hw.start.sees.of_reaches hc
  · exact hw.last.sees.of_reaches hc
  · exact fun m hm => (hparts m hm).2
  · rintro _ ⟨⟩
    refine ⟨.nil, ?_⟩
    change n.notes.Slotted
    rw [h.bare]
    exact Notes.slotted_bare _
  · exact fun m hm => (hparts m hm).1

section
variable {b : Body} {p : Position} {lo hi : Int} (htidy : Tidy c lo hi b.elements)
  (hcurly : ∀ k, b.behindCurly = some k →
    k.extent.start.line = p.line ∧ k.Lies c (p.offset + 1) lo)
include hcurly htidy

/-- The comments of a body lie between its curlies. -/
theorem bodyComments_lie (hplo : p.offset < lo) (hhi : hi ≤ b.last.offset) :
    ∀ k ∈ b.behindCurly.toList ++ Element.commentsAll b.elements,
      k.Lies c (p.offset + 1) b.last.offset := by
  have hlo := htidy.le
  refine List.forall_mem_append.2 ⟨fun k hk => ?_, fun k hk => ?_⟩
  · exact (hcurly k (Option.mem_toList.1 hk)).2.mono (le_refl _) (by omega)
  · exact (htidy.comments k hk).mono (by omega) hhi

/-- The comment behind the curly is none of those of the elements. -/
theorem bodyComments_distinct :
    (b.behindCurly.toList ++ Element.commentsAll b.elements).Pairwise Comment.Distinct := by
  refine List.pairwise_append.2 ⟨?_, htidy.distinct, fun j hj k hk => ?_⟩
  · cases b.behindCurly with
    | none => exact .nil
    | some k => exact List.pairwise_singleton _ _
  · have hj := (hcurly j (Option.mem_toList.1 hj)).2
    have hk := htidy.comments k hk
    have := hj.le
    have := hj.lt_hi
    have := hk.lo_le
    unfold Comment.Distinct
    omega

end

/-- A body that was read makes a declaration of a head that was read. -/
theorem BodyRead.declarationRead {r r' : Reader} {b : Body} {head : Head} {start : Position}
    (h : BodyRead c r b r') (hc : c.Reaches e) (hhead : HeadRead c e head start r) :
    DeclarationRead c e (.block head b.elements b.behindCurly { extent := ⟨start, b.last⟩ }) r' := by
  obtain ⟨⟨d, hd, hpos, hr⟩, hs, hparts⟩ := hhead
  obtain ⟨p, lo, hi, hends, hp, hplo, hhi, htidy, hcurly⟩ := h.body
  have hlo := htidy.le
  have hsp : start.offset < p.offset := hs.lt.trans_le hp.le
  have hlast : e.Between r'.edge b.last := h.last.mono (hd.trans hr.reached) (.refl _)
  have hw : Extent.Within e r'.edge ⟨start, b.last⟩ :=
    ⟨hs.mono (.refl _) h.reached, hlast, by dsimp only; omega⟩
  have hcom : (Element.block head b.elements b.behindCurly { extent := ⟨start, b.last⟩ }).comments =
      b.behindCurly.toList ++ Element.commentsAll b.elements := by
    rw [Element.comments]
    rfl
  have hlie := bodyComments_lie htidy hcurly hplo hhi
  have hwithin : ∀ el ∈ b.elements, p.offset < el.extent.start.offset ∧
      el.extent.last.offset < b.last.offset := by
    intro el hel
    have hel := htidy.within el hel
    omega
  refine ⟨h.toPast.of_reaches (hd.trans hr.reached), ⟨rfl, .intro ⟨?_, ?_, hw.ordered, ?_, ?_⟩ ?_,
    hw.start.le, hw.last.lt, fun k hk => ?_, hcom ▸ bodyComments_distinct htidy hcurly⟩, h.behind,
    h.stops.of_reaches (hd.trans hr.reached)⟩
  · exact hw.start.sees.of_reaches hc
  · exact hw.last.sees.of_reaches hc
  · refine List.forall_mem_append.2 ⟨fun m hm => ?_, fun m hm => ?_⟩
    · have hm := (hparts m hm).2
      have := hp.le
      exact ⟨hm.1, by change _ ≤ b.last.offset; omega⟩
    · obtain ⟨el, hel, rfl⟩ := List.mem_map.1 hm
      have hel := hwithin el hel
      exact ⟨by change start.offset ≤ el.extent.start.offset; omega, hel.2.le⟩
  · rintro _ ⟨⟩
    refine ⟨htidy.ordered, Notes.slotted_bare _, htidy.apart, d, .leftBrace, p, hc.trans hd, hpos,
      hr.ends _ _ hends, hsp.le, .inr ⟨rfl, by dsimp only; omega, hwithin, fun k hk => ?_,
        fun k hk => ?_⟩⟩
    · have hk := htidy.comments k hk
      have := hk.lo_le
      have := hk.lt_hi
      dsimp only
      omega
    · obtain ⟨hline, hk⟩ := hcurly k hk
      have := hk.lo_le
      have := hk.lt_hi
      refine ⟨hline, by omega, by dsimp only; omega, fun el hel => ?_⟩
      have := (htidy.within el hel).1
      omega
  · refine List.forall_mem_append.2 ⟨fun m hm => (hparts m hm).1, fun m hm => ?_⟩
    obtain ⟨el, hel, rfl⟩ := List.mem_map.1 hm
    exact htidy.sound el hel
  · exact (hlie k (hcom ▸ hk)).mono (by change start.offset + 1 ≤ _; omega) (le_refl _)

/-- So does the semicolon behind a head. -/
theorem HeadRead.declarationRead {head : Head} {start : Position}
    (hhead : HeadRead c e head start r) (hc : c.Reaches e)
    (hk : (r.next .plain).token.kind = .delimiter .semicolon) :
    DeclarationRead c e
      (.block head [] none { extent := ⟨start, (r.next .plain).token.position⟩ })
      (r.next .plain) := by
  obtain ⟨⟨d, hd, hpos, hr⟩, hs, hparts⟩ := hhead
  have hreads := hr.reads .plain rfl (hk ▸ nofun) (hk ▸ nofun)
  obtain ⟨ts, -, hf⟩ := hr.finds .plain rfl
  have hde := hd.trans hr.reached
  have hstart := hs.lt
  have hlast := hreads.spot.le
  have hw : Extent.Within e (r.next .plain).edge ⟨start, (r.next .plain).token.position⟩ :=
    ⟨hs.mono (.refl _) hreads.past.reached, hreads.spot.mono hde (.refl _), by dsimp only; omega⟩
  have hcom : (Element.block head [] none
      { extent := ⟨start, (r.next .plain).token.position⟩ }).comments = [] := by
    rw [Element.comments, Element.commentsAll_nil]
    rfl
  have hends : r.edge.HeadEnds .semicolon (r.next .plain).token.position := .here hf hk (.inl rfl)
  refine ⟨hreads.past.of_reaches hde, ⟨rfl, .intro ⟨?_, ?_, hw.ordered, ?_, ?_⟩ ?_, hw.start.le,
    hw.last.lt, by simp [hcom], by simp [hcom]⟩, hreads.queue, (hr.stops hk).of_reaches hde⟩
  · exact hw.start.sees.of_reaches hc
  · exact hw.last.sees.of_reaches hc
  · refine List.forall_mem_append.2 ⟨fun m hm => ⟨(hparts m hm).2.1, ?_⟩, by simp⟩
    have := (hparts m hm).2.2
    change _ ≤ (r.next .plain).token.position.offset
    omega
  · rintro _ ⟨⟩
    exact ⟨.nil, Notes.slotted_bare _, .nil, d, .semicolon, _, hc.trans hd, hpos, hr.ends _ _ hends,
      hw.ordered, .inl ⟨rfl, rfl, rfl, rfl⟩⟩
  · exact List.forall_mem_append.2 ⟨fun m hm => (hparts m hm).1, by simp⟩

/-- A declaration read behind comments is tidy with those of them that lead it, and the others may
stand in front of it as elements. -/
theorem attach_gives {q : Reader} {d : Cursor} {el : Element} {lo : Int} {ts : List Token}
    (hc : c.Reaches d) (hlo : lo ≤ d.position.offset) (hts : Passes d ts q.edge)
    (hel : DeclarationRead c q.edge el r) :
    Gives (attach (ts.map Comment.ofToken) { extent := el.extent }) r fun a r' =>
      r'.Past r.edge ∧ ∃ hi, r'.Waits c hi ∧ Tidy c lo hi [el.mapNotes fun _ => a.1] ∧
        Tidy c lo hi (a.2.map .comment ++ [el.mapNotes fun _ => a.1]) := by
  have hcr := hc.trans (hts.reaches.trans hel.reached)
  refine (commentBehind_gives hel.toPast hcr hel.behind).bind ?_
  rintro inline r' ⟨hp, d', hd', hpass, hinline⟩
  refine sat_pure ⟨hp, d'.position.offset, ⟨d', hcr.trans hd', le_refl _, hpass⟩, ?_⟩
  have hrow := hts.row hc
  have hrow : Row c lo q.edge.position.offset (ts.map Comment.ofToken) :=
    ⟨fun k hk => (hrow.lies k hk).mono hlo (le_refl _), hrow.sorted⟩
  have hle : lo ≤ q.edge.position.offset := hlo.trans hts.reaches.offset_le
  have hdecl := hel.declared
  have hlead := hrow.sublist (List.filter_sublist (p := isAbove el.extent.start))
  have hstray := hrow.sublist (List.filter_sublist (p := fun k => !isAbove el.extent.start k))
  have hslots : Notes.Slotted
      { leading := (ts.map Comment.ofToken).filter (isAbove el.extent.start), inline,
        extent := el.extent } := by
    refine ⟨fun k hk => ?_, fun k hk => ?_, hlead.sorted, fun k hk => ?_⟩
    · exact of_decide_eq_true (List.mem_filter.1 hk).2
    · exact (hlead.lies k hk).lt_hi.trans_le hdecl.lo_le
    · exact ⟨hdecl.lt_hi.trans_le (hinline k hk).2.lo_le, (hinline k hk).1⟩
  have htidy := Tidy.noted hle hlead hdecl hd'.offset_le (fun k hk => (hinline k hk).2) hslots
  refine ⟨htidy, Tidy.strays hstray htidy hle ?_ fun j hj k hk => ?_⟩
  · rw [Element.extent_mapNotes hdecl.bare]
    exact hdecl.lo_le
  · rw [Element.comments_mapNotes hdecl.bare] at hk
    have hj' := hstray.lies j hj
    have := hj'.le
    have := hj'.lt_hi
    have := hdecl.lo_le
    rcases List.mem_append.1 hk with hk | hk
    · rcases List.mem_append.1 hk with hk | hk
      · -- both are of the row, and only one of them ends above the declaration
        refine hrow.distinct.forall (List.mem_filter.1 hj).1 (List.mem_filter.1 hk).1 ?_
        rintro rfl
        simpa [(List.mem_filter.1 hk).2] using (List.mem_filter.1 hj).2
      · have := (hinline k (Option.mem_toList.1 hk)).2.lo_le
        have := hel.reached.offset_le
        unfold Comment.Distinct
        omega
    · have := (hdecl.comments k hk).lo_le
      unfold Comment.Distinct
      omega

section
variable {body : Scope → Reading Body} {Q : Element → Reader → Prop} (hr : r.Past e)
  (hblock : ∀ scope head start r', HeadRead c r.edge head start r' →
    Gives (block body scope head start) r' Q)
include hr hblock

/-- A block whose head is a keyword and a name. -/
theorem keyword_block_sat {α : Type} (k : Keyword) {x : Reading α} (hx : Heads x)
    (hk : ∀ I, Keeps I x) (scope : Scope) (head : α → Head) (hparts : ∀ a, (head a).parts = []) :
    Gives (do let start ← expectKeyword k; block body scope (head (← x)) start) r Q := by
  refine (expectKeyword_head hr k).bind ?_
  rintro start r₁ ⟨h₁, rfl, d, hd, hpos, hhead⟩
  refine ((hx d r₁ hhead).and (Keeps.goes hk h₁.past)).bind fun a r₂ ⟨h₂, hp₂⟩ => ?_
  exact hblock scope _ _ r₂
    ⟨⟨d, hd, hpos, h₂⟩, h₁.spot.mono (.refl _) hp₂.reached, by simp [hparts]⟩

variable (hc : c.Reaches e) (hsemicolon : ∀ head start r', HeadRead c r.edge head start r' →
    (r'.next .plain).token.kind = .delimiter .semicolon →
    Q (.block head [] none { extent := ⟨start, (r'.next .plain).token.position⟩ })
      (r'.next .plain))
include hc hsemicolon

theorem rpc_sat : Gives (rpc body) r Q := by
  have hcr := hc.trans hr.reached
  refine (expectKeyword_head hr _).bind ?_
  rintro start r₁ ⟨h₁, rfl, d, hd, hpos, hhead₁⟩
  refine ((heads_expectIdent _ d r₁ hhead₁).and (expectIdent_gives h₁.past _)).bind ?_
  rintro name r₂ ⟨hhead₂, h₂⟩
  refine ((heads_rpcType d r₂ hhead₂).and (rpcType_gives h₂.past)).bind ?_
  rintro request r₃ ⟨hhead₃, hp₃, hw₃⟩
  refine ((heads_expectKeyword _ d r₃ hhead₃).and (expectKeyword_gives hp₃ _)).bind ?_
  rintro _ r₄ ⟨hhead₄, h₄, -⟩
  refine ((heads_rpcType d r₄ hhead₄).and (rpcType_gives h₄.past)).bind ?_
  rintro response r₅ ⟨hhead₅, hp₅, hw₅⟩
  have h₁₂ := h₂.past.reached
  have h₂₄ := hp₃.reached.trans h₄.past.reached
  have h₁₅ := h₁₂.trans (h₂₄.trans hp₅.reached)
  -- the types stand behind the keyword and in front of the reader
  have hparts : ∀ m ∈ (Head.rpc { name, request, response }).parts, m.All (Node.Sound c) ∧
      r₁.token.position.offset ≤ m.extent.start.offset ∧
        m.extent.last.offset < r₅.edge.position.offset := by
    have hc₁ := hcr.trans h₁.past.reached
    have hspot := h₁.spot.lt
    have hsound {t : RpcType} {lo hi : Cursor} (hlo : r₁.edge.Reaches lo) (hhi : hi.Reaches r₅.edge)
        (hw : t.extent.Within lo hi) : Node.All (Node.Sound c) (.rpcType t) ∧
          r₁.token.position.offset ≤ t.extent.start.offset ∧
            t.extent.last.offset < r₅.edge.position.offset := by
      have hw := hw.mono hlo hhi
      have := hw.start.le
      refine ⟨.intro ⟨?_, ?_, hw.ordered, nofun, nofun⟩ nofun, by omega, hw.last.lt⟩
      · exact hw.start.sees.of_reaches hc₁
      · exact hw.last.sees.of_reaches hc₁
    simp only [Head.parts, List.mem_cons, List.not_mem_nil, or_false, forall_eq_or_imp, forall_eq]
    exact ⟨hsound h₁₂ (h₄.past.reached.trans hp₅.reached) hw₃,
      hsound (h₁₂.trans h₂₄) (.refl _) hw₅⟩
  refine (next_sat .plain).bind ?_
  rintro kind _ ⟨hkind, rfl⟩
  have hspot := h₁.spot.mono (.refl _) h₁₅
  split
  · refine position_sat.bind ?_
    rintro _ _ ⟨rfl, rfl⟩
    exact sat_pure (hsemicolon _ _ r₅ ⟨⟨d, hd, hpos, hhead₅⟩, hspot, hparts⟩ hkind.symm)
  · refine ((head_putBack hhead₅ .plain rfl).and (putBack_gives rfl hp₅)).bind ?_
    rintro _ r₆ ⟨hhead₆, hp₆, -⟩
    refine hblock .rpc _ _ r₆ ⟨⟨d, hd, hpos, hhead₆⟩, hspot.mono (.refl _) hp₆.reached, ?_⟩
    exact fun m hm => ⟨(hparts m hm).1, (hparts m hm).2.1,
      (hparts m hm).2.2.trans_le hp₆.reached.offset_le⟩
  · exact gives_reject

/-- A declaration is a statement, a block, or a head with a semicolon. -/
theorem declaration_sat (opts : Options) (p : Production)
    (hstatement : ∀ {α : Type} (wrap : α → Statement) (n : Noted α) r', r'.Closed r.edge n.notes →
      (∀ m ∈ (wrap n.item).parts, m.All (Node.Sound c) ∧
        n.notes.extent.start.offset ≤ m.extent.start.offset ∧
          m.extent.last.offset ≤ n.notes.extent.last.offset) → Q (statement wrap n) r') :
    Gives (declaration opts body p) r Q := by
  have hident (expected : String) : ∀ I, Keeps I (expectIdent expected) :=
    fun _ => keeps_expectIdent _
  have hbare {α : Type} {wrap : α → Statement} {x : Reading (Noted α)}
      (hparts : ∀ a, (wrap a).parts = [])
      (hx : Gives x r fun n r' => r'.Closed r.edge n.notes) :
      Gives (do return statement wrap (← x)) r Q :=
    hx.bind fun n r' h => sat_pure (hstatement wrap n r' h (by simp [hparts]))
  cases p with
  | version => exact hbare (fun _ => rfl) (version_gives hr)
  | importing => exact hbare (fun _ => rfl) (importing_gives hr)
  | package => exact hbare (fun _ => rfl) (package_gives hr)
  | field => exact hbare (fun _ => rfl) (field_gives hr opts)
  | mapField => exact hbare (fun _ => rfl) (mapField_gives hr opts)
  | enumField => exact hbare (fun _ => rfl) (enumField_gives hr opts)
  | reserved => exact hbare (fun _ => rfl) (reserved_gives hr)
  | option =>
    exact (option_gives hr (hc.trans hr.reached) opts).bind fun n r' h =>
      sat_pure (hstatement _ n r' h.1 h.2)
  | oneof =>
    exact keyword_block_sat hr hblock _ (heads_expectIdent _) (hident _) _ .oneof fun _ => rfl
  | enum =>
    exact keyword_block_sat hr hblock _ (heads_expectIdent _) (hident _) _ .enum fun _ => rfl
  | extend =>
    exact keyword_block_sat hr hblock _ heads_messageType (fun _ => keeps_messageType) _
      (fun a => .extend a.1) fun _ => rfl
  | message =>
    exact keyword_block_sat hr hblock _ (heads_expectIdent _) (hident _) _ .message fun _ => rfl
  | service =>
    exact keyword_block_sat hr hblock _ (heads_expectIdent _) (hident _) _ .service fun _ => rfl
  | rpc => exact rpc_sat hr hblock hc hsemicolon

end

theorem declaration_gives {body : Scope → Reading Body} (hc : c.Reaches e)
    (hbody : ∀ scope e r, r.Past e → c.Reaches r.edge → Gives (body scope) r (BodyRead c r))
    (opts : Options) (p : Production) (hr : r.Past e) :
    Gives (declaration opts body p) r fun el r' => DeclarationRead c r.edge el r' := by
  have hcr := hc.trans hr.reached
  refine declaration_sat hr (fun scope head start r' hhead => ?_) hc
    (fun head start r' hhead hk => hhead.declarationRead hcr hk) opts p
    fun wrap n r' h hparts => closed_declarationRead h hcr hparts
  obtain ⟨d, hd, -, hfrom⟩ := hhead.started
  exact (hbody scope d r' hfrom.toPast (hcr.trans (hd.trans hfrom.reached))).bind fun _ _ h =>
    sat_pure (h.declarationRead hcr hhead)

end Grammar

end ProtoIdl
