import ProtoIdl.Proofs.Grammar.Layout
/-!
# How bodies and files are laid out

A body and a file are read in rounds. A round reads siblings that are tidy and leaves in the queue
only comments behind them, so what all rounds read is tidy. Bodies contain bodies: the induction is
on the depth. Main statements: `Grammar.body_gives` and `Grammar.file_gives`.
-/
namespace ProtoIdl

/-- The elements of a file in the order in which they were read: the version has only comments in
front of it. -/
def File.Arranged (f : File) (es : List Element) : Prop :=
  match f.version with
  | none => f.body = es
  | some v => ∃ (ks : List Comment) (rest : List Element), f.body = ks.map .comment ++ rest ∧
    es = ks.map .comment ++ .statement (.version v.item) v.notes :: rest

theorem File.Arranged.append {f : File} {es : List Element} (h : f.Arranged es)
    (ds : List Element) : File.Arranged { f with body := f.body ++ ds } (es ++ ds) := by
  unfold Arranged at *
  cases hv : f.version with
  | none =>
    simp only [hv] at h ⊢
    rw [h]
  | some v =>
    simp only [hv] at h ⊢
    obtain ⟨ks, rest, hbody, rfl⟩ := h
    exact ⟨ks, rest ++ ds, by rw [hbody, List.append_assoc], by simp⟩

/-- A file that was read from the text that starts at `c`. -/
structure File.Laid (c : Cursor) (f : File) : Prop where
  siblings : ∃ lo hi, Tidy c lo hi f.siblings
  version : ∀ v, f.version = some v → ∀ e ∈ f.body, (∀ k, e ≠ .comment k) →
    v.notes.extent.last.offset < e.extent.start.offset

theorem File.Arranged.laid {c : Cursor} {lo hi : Int} {f : File} {es : List Element}
    (h : f.Arranged es) (ht : Tidy c lo hi es) : f.Laid c := by
  unfold Arranged at h
  cases hv : f.version with
  | none =>
    simp only [hv] at h
    refine ⟨⟨lo, hi, ?_⟩, fun v hv' => ?_⟩
    · unfold siblings
      rwa [hv, h]
    · rw [hv] at hv'
      cases hv'
  | some v =>
    simp only [hv] at h
    obtain ⟨ks, rest, hbody, rfl⟩ := h
    obtain ⟨-, hrest, hbefore⟩ := List.pairwise_append.1 ht.ordered
    have hrest := (List.pairwise_cons.1 hrest).1
    have hord (e : Element) (he : e ∈ ks.map .comment ++ .statement (.version v.item) v.notes :: rest) :
        e.extent.start.offset ≤ e.extent.last.offset := (ht.sound e he).self.ordered
    refine ⟨⟨lo, hi, ?_⟩, fun v' hv' e he hne => ?_⟩
    · -- the version stands where the order of the starts puts it
      have hks : ∀ e ∈ ks.map Element.comment,
          decide (e.extent.start.offset < v.notes.extent.start.offset) = true := by
        intro e he
        have hb : e.extent.last.offset < v.notes.extent.start.offset :=
          hbefore e he _ List.mem_cons_self
        exact decide_eq_true ((hord e (List.mem_append_left _ he)).trans_lt hb)
      have hdrop : ∀ e ∈ rest,
          decide (e.extent.start.offset < v.notes.extent.start.offset) = false := by
        intro e he
        have hb : v.notes.extent.last.offset < e.extent.start.offset := hrest e he
        have hv : v.notes.extent.start.offset ≤ v.notes.extent.last.offset :=
          hord _ (List.mem_append_right _ List.mem_cons_self)
        exact decide_eq_false (by omega)
      have htake : rest.takeWhile (fun e =>
          decide (e.extent.start.offset < v.notes.extent.start.offset)) = [] := by
        cases rest with
        | nil => rfl
        | cons e rest => simp [hdrop e List.mem_cons_self]
      have hrest : rest.dropWhile (fun e =>
          decide (e.extent.start.offset < v.notes.extent.start.offset)) = rest := by
        cases rest with
        | nil => rfl
        | cons e rest => simp [hdrop e List.mem_cons_self]
      unfold siblings
      rw [hv, hbody]
      dsimp only
      rwa [List.takeWhile_append_of_pos hks, List.dropWhile_append_of_pos hks, htake, hrest,
        List.append_nil]
    · obtain rfl : v = v' := Option.some.inj (hv.symm.trans hv')
      rw [hbody] at he
      rcases List.mem_append.1 he with he | he
      · obtain ⟨k, -, rfl⟩ := List.mem_map.1 he
        exact absurd rfl (hne k)
      · exact hrest e he

namespace Grammar

open Reading

variable {c e : Cursor} {r : Reader} {lo : Int}

/-! ## Rounds -/

/-- A round starts: the comments `ks` in front of the next token, which is of kind `k`, are claimed,
and what is still queued is behind `lo`. -/
structure Ahead (c : Cursor) (lo : Int) (ks : List Comment) (k : Kind) (r : Reader) : Prop where
  comments : ∃ d ts, c.Reaches d ∧ lo ≤ d.position.offset ∧ Passes d ts r.edge ∧
    ks = ts.map Comment.ofToken
  token : ∃ t e, r.edge.Finds .keyword t [] r.edge e ∧ k = t.kind
  waits : r.Waits c lo

theorem round_gives {α : Type} {Q : α → Reader → Prop} {f : List Comment → Kind → Reading α}
    (hr : r.Past e) (hw : r.Waits c lo)
    (hf : ∀ ks k r', r'.Past r.edge → Ahead c lo ks k r' → Gives (f ks k) r' Q) :
    Gives (do let comments ← commentsAhead; f comments (← peek .keyword)) r Q := by
  obtain ⟨d, hd, hlo, hq⟩ := hw
  refine (commentsAhead_gives hr hq).bind ?_
  rintro _ r₁ ⟨h₁, hnil, ts, rfl, hts⟩
  refine (peek_passes rfl h₁).bind ?_
  rintro k r₂ ⟨h₂, t, us, e', hus, hk, hfinds⟩
  refine hf _ k r₂ (h₁.trans h₂) ⟨⟨d, ts, hd, hlo, ?_, rfl⟩, ⟨t, e', ?_, hk⟩, r₁.edge, ?_, ?_, ?_⟩
  · simpa using hts.append (.nil h₂.reached)
  · exact hfinds.at_mark h₁.edge_whole
  · exact hd.trans hts.reaches
  · exact hlo.trans hts.reaches.offset_le
  · rw [hus, hnil]
    exact hfinds.passes

/-- The comments queued stay behind `lo` as tokens are read. -/
theorem waits_next (hr : r.Past e) (hw : r.Waits c lo) : (r.next .plain).Waits c lo := by
  obtain ⟨d, hd, hlo, hq⟩ := hw
  obtain ⟨ts, hts, hf⟩ := hr.finds .plain rfl
  have h := (hq.append hf.passes).append (.nil hf.found.reaches)
  rw [List.append_nil, ← hts] at h
  exact ⟨d, hd, hlo, h⟩

namespace Ahead

variable {ks : List Comment} {k : Kind}

/-- The token that was looked at may be read as one that is no keyword. -/
theorem kind_plain {d : Delimiter} (h : Ahead c lo ks (.delimiter d) r) (hr : r.Past e) :
    (r.next .plain).token.kind = .delimiter d := by
  obtain ⟨t, e', hf, hk⟩ := h.token
  obtain ⟨t', hf', hk'⟩ := hf.plain
  obtain ⟨ts, -, hf''⟩ := hr.finds .plain rfl
  rw [(hf''.unique hf').1]
  exact (hk' d).1 hk.symm

/-- The comments claimed may stand as elements. -/
theorem tidy (h : Ahead c lo ks k r) : Tidy c lo r.edge.position.offset (ks.map .comment) := by
  obtain ⟨d, ts, hd, hlo, hts, rfl⟩ := h.comments
  exact ((hts.row hd).tidy hts.reaches.offset_le).mono hlo (le_refl _)

end Ahead

/-- What is read of the body of a block, or of a file, is tidy. -/
def Siblings (c : Cursor) (lo : Int) (es : List Element) (r : Reader) : Prop :=
  ∃ mid, Tidy c lo mid es ∧ r.Waits c mid

section
variable {body : Scope → Reading Body} {ks : List Comment} {k : Kind} (hc : c.Reaches e)
  (hbody : ∀ scope e r, r.Past e → c.Reaches r.edge → Gives (body scope) r (BodyRead c r))
include hc hbody

theorem element_gives (opts : Options) (keep : Bool) (p : Production) (hr : r.Past e)
    (ha : Ahead c lo ks k r) : Gives (element opts body keep ks p) r fun es r' =>
      r'.Past r.edge ∧ Siblings c lo es r' := by
  obtain ⟨d, ts, hd, hlo, hts, rfl⟩ := ha.comments
  refine (declaration_gives hc hbody opts p hr).bind fun el r₁ h₁ => ?_
  rw [h₁.declared.bare]
  refine (attach_gives hd hlo hts h₁).bind ?_
  rintro ⟨notes, strays⟩ r₂ ⟨hp₂, hi, hw, htidy, hstrays⟩
  refine sat_pure ⟨h₁.toPast.trans hp₂, hi, ?_, hw⟩
  cases keep with
  | true => exact hstrays
  | false => exact htidy

end

/-! ## Bodies -/

/-- The opening curly ends the head in front of it. -/
theorem leftBrace_gives (hr : r.Past e) (expected : String) :
    Gives (expectDelimiter .leftBrace expected) r fun _ r' => r.Reads r' ∧
      r.edge.HeadEnds .leftBrace r'.token.position ∧ r'.Stops r.edge r'.token.position := by
  refine (expect_gives hr .plain rfl (.delimiter .leftBrace) nofun nofun expected).bind ?_
  rintro _ _ ⟨rfl, hk, hreads⟩
  obtain ⟨ts, -, hf⟩ := hr.finds .plain rfl
  exact sat_pure ⟨hreads, .here hf hk (.inr rfl), hr.stops hk⟩

/-- The rest of a body was read after `r`, up to its closing curly. -/
structure BodyEnd (c : Cursor) (lo : Int) (r : Reader) (b : Body) (r' : Reader) : Prop
    extends r'.Past r.edge where
  elements : ∃ hi, hi ≤ b.last.offset ∧ Tidy c lo hi b.elements
  last : r.edge.Between r'.edge b.last
  behind : ∀ t ∈ r'.stream.pending, t.position.offset < b.last.offset
  stops : r'.Stops r.edge b.last

/-- One round reads siblings, and the last one reads the closing curly. -/
theorem bodyRound_gives (opts : Options) {nested : Scope → Reading Body} (hc : c.Reaches e)
    (hnested : ∀ scope e r, r.Past e → c.Reaches r.edge → Gives (nested scope) r (BodyRead c r))
    (scope : Scope) (curly : Option Comment) {es : List Element} (hr : r.Past e)
    (h : Siblings c lo es r) :
    Gives (bodyRound opts nested scope curly es) r fun x r' => match x with
      | .again es' => r'.Past r.edge ∧ Siblings c lo es' r'
      | .done b => b.behindCurly = curly ∧ BodyEnd c lo r b r' := by
  obtain ⟨mid, htidy, hw⟩ := h
  refine round_gives hr hw fun ks k r₁ h₁ ha => ?_
  split
  · -- the body ends here
    have hk := ha.kind_plain h₁
    have hreads := h₁.reads .plain rfl (hk ▸ nofun) (hk ▸ nofun)
    refine (next_sat .plain).bind ?_
    rintro _ _ ⟨-, rfl⟩
    refine position_sat.bind ?_
    rintro _ _ ⟨rfl, rfl⟩
    refine sat_pure ⟨rfl, h₁.trans hreads.past, ⟨r₁.edge.position.offset, hreads.spot.le, ?_⟩,
      hreads.spot.mono h₁.reached (.refl _), hreads.queue, (h₁.stops hk).of_reaches h₁.reached⟩
    dsimp only
    split
    · exact htidy.append ha.tidy
    · exact htidy.mono (le_refl _) ha.tidy.le
  · refine (next_sat .plain).bind ?_
    rintro _ _ ⟨-, rfl⟩
    exact sat_pure ⟨h₁.trans (h₁.next .plain rfl).toPast, mid, htidy, waits_next h₁ ha.waits⟩
  · split
    · exact (Keeps.goes (fun _ => keeps_next rfl) h₁).bind fun _ _ _ => gives_reject
    · refine (element_gives (hc.trans hr.reached) hnested opts _ _ h₁ ha).bind ?_
      rintro ds r₂ ⟨h₂, hi, hds, hw₂⟩
      exact sat_pure ⟨h₁.trans h₂, hi, htidy.append hds, hw₂⟩

theorem bodyAtMost_gives (opts : Options) (depth : Nat) (scope : Scope) (hr : r.Past e)
    (hc : c.Reaches r.edge) : Gives (bodyAtMost opts depth scope) r (BodyRead c r) := by
  induction depth generalizing scope e r with
  | zero => exact sat_throw trivial
  | succ depth ih =>
    refine (leftBrace_gives hr _).bind ?_
    rintro _ r₁ ⟨h₁, hends, -⟩
    have hc₁ := hc.trans h₁.past.reached
    refine position_sat.bind ?_
    rintro _ r₁ ⟨rfl, rfl⟩
    refine (commentBehind_gives h₁.past hc₁ h₁.queue).bind ?_
    rintro curly r₂ ⟨h₂, d, hd, hq, hcurly⟩
    refine sat_repeatFrom
      (I := fun es r' => r'.Past r₁.edge ∧ Siblings c d.position.offset es r')
      ⟨h₂, d.position.offset, .nil (le_refl _), d, hc₁.trans hd, le_refl _, hq⟩
      (fun es r₃ ⟨h₃, hes⟩ => ?_) trivial
    refine (bodyRound_gives opts hc₁ (fun scope _ _ => ih scope) scope curly h₃ hes).mono ?_
    rintro (es' | b) r₄ h₄
    · exact ⟨h₃.trans h₄.1, h₄.2⟩
    · obtain ⟨rfl, hend⟩ := h₄
      obtain ⟨hi, hhi, htidy⟩ := hend.elements
      have hreached := h₁.past.reached.trans h₃.reached
      refine ⟨h₁.past.trans (h₃.trans hend.toPast), ⟨_, d.position.offset, hi, hends, ?_,
        h₁.spot.lt.trans_le hd.offset_le, hhi, htidy, fun k hk => ⟨(hcurly k hk).1, ?_⟩⟩,
        hend.last.mono hreached (.refl _), hend.behind, hend.stops.of_reaches hreached⟩
      · exact h₁.spot.mono (.refl _) (h₃.reached.trans hend.reached)
      · have := h₁.spot.lt
        exact (hcurly k hk).2.mono (by omega) (le_refl _)

theorem body_gives (opts : Options) (scope : Scope) (hr : r.Past e) (hc : c.Reaches r.edge) :
    Gives (body opts scope) r (BodyRead c r) := by
  refine sat_get.bind ?_
  rintro _ _ ⟨rfl, rfl⟩
  exact bodyAtMost_gives opts _ scope hr hc

/-! ## Files -/

/-- One round of a file reads siblings, too; the version only has comments in front of it. -/
theorem fileRound_gives (opts : Options) {f : File} {es : List Element} (hc : c.Reaches r.edge)
    (hr : r.Past e) (harr : f.Arranged es) (h : Siblings c lo es r) :
    Gives (fileRound opts f) r fun x r' => match x with
      | .again g => r'.Past r.edge ∧ ∃ ds, g.Arranged ds ∧ Siblings c lo ds r'
      | .done g => g.Laid c := by
  obtain ⟨mid, htidy, hw⟩ := h
  refine round_gives hr hw fun ks k r₁ h₁ ha => ?_
  have hc₁ := hc.trans h₁.reached
  split
  · exact sat_pure ((harr.append _).laid (htidy.append ha.tidy))
  · refine (next_sat .plain).bind ?_
    rintro _ _ ⟨-, rfl⟩
    exact sat_pure ⟨h₁.trans (h₁.next .plain rfl).toPast, es, harr, mid, htidy,
      waits_next h₁ ha.waits⟩
  · split
    · exact (Keeps.goes (fun _ => keeps_next rfl) h₁).bind fun _ _ _ => gives_reject
    · obtain ⟨d, ts, hd, hlo, hts, rfl⟩ := ha.comments
      refine (version_gives h₁).bind fun v r₂ h₂ => ?_
      have hdecl : DeclarationRead c r₁.edge (statement .version v) r₂ :=
        closed_declarationRead h₂ hc₁ (by simp [Statement.parts])
      rw [h₂.bare]
      refine (attach_gives hd (htidy.le.trans hlo) hts hdecl).bind ?_
      rintro ⟨notes, strays⟩ r₃ ⟨h₃, hi, hw₃, -, hstrays⟩
      refine sat_pure ⟨h₁.trans (h₂.toPast.trans h₃), _, ?_, hi, hstrays, hw₃⟩
      exact ⟨strays, [], (List.append_nil _).symm, rfl⟩
  · split
    · exact (Keeps.goes (fun _ => keeps_next rfl) h₁).bind fun _ _ _ => gives_reject
    · refine (element_gives hc (fun scope _ _ hr hc => body_gives opts scope hr hc) opts _ _ h₁
        ha).bind ?_
      rintro ds r₂ ⟨h₂, hi, hds, hw₂⟩
      exact sat_pure ⟨h₁.trans h₂, es ++ ds, harr.append ds, hi, htidy.append hds, hw₂⟩

theorem file_gives (opts : Options) (hr : r.Past e) (hc : c.Reaches r.edge)
    (hq : r.stream.pending = []) : Gives (file opts) r fun f _ => f.Laid c := by
  refine sat_repeatFrom (I := fun f r' => r'.Past r.edge ∧
    ∃ es, f.Arranged es ∧ Siblings c r.edge.position.offset es r')
    ⟨⟨hr.edge_whole, .refl _, hr.rounds, hr.queue⟩, [], rfl, r.edge.position.offset,
      .nil (le_refl _), r.edge, hc, le_refl _, hq ▸ .nil (.refl _)⟩
    (fun f r₁ ⟨h₁, es, harr, hes⟩ => ?_) trivial
  refine (fileRound_gives opts (hc.trans h₁.reached) h₁ harr hes).mono ?_
  rintro (g | g) r₂ h₂
  · exact ⟨h₁.trans h₂.1, h₂.2⟩
  · exact h₂

end Grammar

end ProtoIdl
