import ProtoIdl.Proofs.Grammar.Bodies
import ProtoIdl.Proofs.Tree.Pause
/-!
# Comments between declarations are saved

Between two declarations the queue holds what was passed over since the last pause, less the comment
that is claimed behind a declaration or a curly: `Reader.Follows` says what will be found from the
pause in terms of what is found from the reader. `Saved` is the invariant of both loops: every pause
met so far saves its comments up to the last pause, whose comments are still to be claimed. An empty
statement drops them and moves the pause. Main statements: `Grammar.bodyAtMost_saves` and
`Grammar.file_saves`.
-/
namespace ProtoIdl

/-- What is found from `r` on is found from `b` on, behind the comments `done` and those queued. -/
def Reader.Follows (b : Cursor) (done : List Token) (r : Reader) : Prop :=
  ∀ m t ts d e, r.edge.Finds m t ts d e → b.Finds m t (done ++ r.stream.pending ++ ts) d e

theorem Reader.follows_self {r : Reader} (h : r.stream.pending = []) : r.Follows r.edge [] := by
  intro m t ts d e hf
  rwa [h]

namespace Grammar

open Reading

variable {a b c e : Cursor} {r : Reader} {done : List Token} {ks js : List Comment}

/-! ## Claiming comments -/

/-- Looking at the next token moves the comments in front of it into the queue. -/
theorem peek_follows {mode : Mode} (hm : mode.comments = false) (hr : r.Past e)
    (hb : r.Follows b done) : Gives (peek mode) r fun k r' => r'.Past r.edge ∧ r'.Follows b done ∧
      ∃ t ts d, r'.stream.pending = r.stream.pending ++ ts ∧ k = t.kind ∧
        r.edge.Finds mode t ts r'.edge d := by
  refine (peek_passes hm hr).mono ?_
  rintro k r' ⟨hp, t, ts, d, hts, hk, hf⟩
  refine ⟨hp, fun m t' ts' d' e' hf' => ?_, t, ts, d, hts, hk, hf⟩
  obtain ⟨rfl, rfl, hfound⟩ := hf.again hr.edge_whole hf'
  rw [hts, List.append_nil, ← List.append_assoc]
  exact hb m t' ts _ e' hfound

/-- The comment that is claimed is the first one found, if any is. -/
theorem commentBehind_follows {place : Position} (hr : r.Past e)
    (hq : ∀ t ∈ r.stream.pending, t.position.offset < place.offset) :
    Gives (commentBehind place) r fun k? r' => r'.Past r.edge ∧
      ∃ done, r'.Follows r.edge done ∧ k?.toList = done.map Comment.ofToken := by
  refine pending_sat.bind ?_
  rintro _ r ⟨rfl, rfl⟩
  have hnil : (r.stream.pending.dropWhile fun t => t.position.offset < place.offset) = [] := by
    rw [List.dropWhile_eq_nil_iff]
    exact fun t ht => decide_eq_true (hq t ht)
  rw [hnil]
  refine (setPending_sat []).bind ?_
  rintro _ _ rfl
  refine (peek_follows rfl (Past.setPending hr (by simp)) (Reader.follows_self rfl)).bind ?_
  rintro _ r₁ ⟨hp, hb, -⟩
  refine pending_sat.bind ?_
  rintro _ r₁ ⟨rfl, rfl⟩
  cases hts : r₁.stream.pending with
  | nil => exact sat_pure ⟨hp, [], hb, rfl⟩
  | cons t ts =>
    dsimp only
    split
    · refine (setPending_sat ts).bind ?_
      rintro _ _ rfl
      refine sat_pure ⟨Past.setPending hp fun u hu => ?_, [t], fun m t' ts' d' e' hf => ?_, rfl⟩
      · exact hp.queue u (hts ▸ List.mem_cons_of_mem t hu)
      · have hf := hb m t' ts' d' e' hf
        rw [hts] at hf
        exact hf
    · exact sat_pure ⟨hp, [], hb, rfl⟩

/-- A round meets the next token: it and the comments `ts` in front of it are found from the last
pause on, and the comments that were not claimed before are claimed. -/
structure Met (b : Cursor) (js ks : List Comment) (k : Kind) (t : Token) (ts : List Token)
    (e : Cursor) (r : Reader) : Prop where
  token : r.edge.Finds .plain t [] r.edge e
  kind : ∀ d, k = .delimiter d ↔ t.kind = .delimiter d
  found : b.Finds .plain t ts r.edge e
  claimed : ∀ u ∈ ts, Comment.ofToken u ∈ js ++ ks
  queue : r.stream.pending = []

theorem round_meets {α : Type} {Q : α → Reader → Prop} {f : List Comment → Kind → Reading α}
    (hr : r.Past e) (hb : r.Follows b done) (hdone : ∀ t ∈ done, Comment.ofToken t ∈ js)
    (hf : ∀ ks k t ts d r', r'.Past r.edge → Met b js ks k t ts d r' → Gives (f ks k) r' Q) :
    Gives (do let comments ← commentsAhead; f comments (← peek .keyword)) r Q := by
  have hahead : Gives commentsAhead r fun ks r' => r'.Past r.edge ∧ r'.stream.pending = [] ∧
      (∃ t ts d, r.edge.Finds .plain t ts r'.edge d) ∧
        ∃ ts, ks = ts.map Comment.ofToken ∧ r'.Follows b (done ++ ts) := by
    refine (peek_follows rfl hr hb).bind ?_
    rintro _ r₁ ⟨hp, hb₁, t, ts, d, -, -, hfound⟩
    refine pending_sat.bind ?_
    rintro _ r₁ ⟨rfl, rfl⟩
    refine (setPending_sat []).bind ?_
    rintro _ _ rfl
    refine sat_pure ⟨Past.setPending hp (by simp), rfl, ⟨t, ts, d, hfound⟩, _, rfl, ?_⟩
    intro m t' ts' d' e' hf'
    rw [List.append_nil]
    exact hb₁ m t' ts' d' e' hf'
  refine hahead.bind ?_
  rintro _ r₁ ⟨h₁, hnil, ⟨t₀, ts₀, d₀, hmark⟩, us, rfl, hb₁⟩
  refine (peek_follows rfl h₁ hb₁).bind ?_
  rintro k r₂ ⟨h₂, hb₂, t, ts, d, hts, rfl, hfinds⟩
  -- nothing is left between the token and the reader that looked at it before
  obtain ⟨rfl, -⟩ := hmark.again hr.edge_whole hfinds
  rw [hnil, List.nil_append] at hts
  obtain ⟨t', ht', hk⟩ := (hfinds.at_mark h₁.edge_whole).plain
  have hfound := hb₂ _ _ _ _ _ ht'
  rw [hts, List.append_nil, List.append_nil] at hfound
  refine hf _ _ t' (done ++ us) d r₂ (h₁.trans h₂) ⟨ht', hk, hfound, fun u hu => ?_, hts⟩
  rcases List.mem_append.1 hu with hu | hu
  · exact List.mem_append_left _ (hdone u hu)
  · exact List.mem_append_right _ (List.mem_map_of_mem hu)

namespace Met

variable {k : Kind} {t : Token} {ts : List Token}

/-- A pause in front of a token that is no semicolon has its comments claimed. -/
theorem saves (h : Met b js ks k t ts e r) (hk : k ≠ .delimiter .semicolon)
    {is : List Comment} (hj : js ⊆ is) (hks : ks ⊆ is) : b.SavesAll is := by
  refine Cursor.savesAll_of_finds h.found (fun ht => hk ((h.kind _).2 ht)) fun u hu => ?_
  exact (List.append_subset.2 ⟨hj, hks⟩) (h.claimed u hu)

/-- Behind a semicolon is a pause, and nothing is queued. -/
theorem next (h : Met b js ks k t ts e r) {c : Cursor} (hr : r.Past c) :
    (r.next .plain).edge = e ∧ (r.next .plain).stream.pending = [] := by
  obtain ⟨us, hus, hf⟩ := hr.finds .plain rfl
  obtain ⟨-, rfl, -, rfl⟩ := hf.unique h.token
  exact ⟨rfl, by rw [hus, h.queue, List.append_nil]⟩

end Met

/-! ## Declarations -/

/-- The comments between the declarations inside an element are in the element. -/
structure InnerSaved (c : Cursor) (el : Element) : Prop where
  opening : ∀ b, el.Opens c b → b.SavesAll el.comments
  body : ∀ d ∈ el.body, Node.All (Node.Borders c (Cursor.SavesAll el.comments)) (.element d)

theorem innerSaved_statement (s : Statement) (notes : Notes) : InnerSaved c (.statement s notes) := by
  constructor
  · intro b hb
    exact hb.elim
  · intro d hd
    cases hd

/-- All comments behind the pause `a` and between the elements are among `ks`. -/
def AllSaved (c a : Cursor) (ks : List Comment) (es : List Element) : Prop :=
  a.SavesAll ks ∧ ∀ el ∈ es, Node.All (Node.Borders c (Cursor.SavesAll ks)) (.element el)

/-- So it is of a body that was read behind `r`. -/
structure BodySaved (c : Cursor) (r : Reader) (b : Body) : Prop where
  opening : ∃ p, r.edge.HeadEnds .leftBrace p ∧ ∀ a, c.Behind p a →
    a.SavesAll (b.behindCurly.toList ++ Element.commentsAll b.elements)
  elements : ∀ d ∈ b.elements, Node.All (Node.Borders c
    (Cursor.SavesAll (b.behindCurly.toList ++ Element.commentsAll b.elements))) (.element d)

theorem BodySaved.inner {bd : Body} {head : Head} {start : Position} (h : BodySaved c r bd)
    (hc : c.Reaches e) (hhead : HeadRead c e head start r) :
    InnerSaved c (.block head bd.elements bd.behindCurly { extent := ⟨start, bd.last⟩ }) := by
  obtain ⟨d, hd, hpos, hr⟩ := hhead.started
  obtain ⟨p, hp, hopen⟩ := h.opening
  refine ⟨?_, ?_⟩
  · rintro a ⟨d', p', hd', hpos', hends, ha⟩
    obtain rfl := hd'.eq_of_offset (hc.trans hd) (by rw [hpos, hpos'])
    obtain ⟨-, rfl⟩ := (hr.ends _ _ hp).unique hends
    rw [Element.comments]
    exact hopen a ha
  · rw [Element.comments]
    exact h.elements

section
variable {body : Scope → Reading Body} (hc : c.Reaches e)
  (hsaved : ∀ scope e r, r.Past e → c.Reaches r.edge → Gives (body scope) r fun b _ =>
    BodySaved c r b)
include hc hsaved

theorem declaration_saves (opts : Options) (p : Production) (hr : r.Past e) :
    Gives (declaration opts body p) r fun el _ => InnerSaved c el := by
  have hcr := hc.trans hr.reached
  refine declaration_sat (Q := fun el _ => InnerSaved c el) hr (fun scope head start r' hhead => ?_)
    hc (fun head start r' hhead hk => ⟨?_, by simp [Element.body]⟩) opts p
    fun wrap n r' _ _ => innerSaved_statement _ _
  · obtain ⟨d, hd, -, hfrom⟩ := hhead.started
    exact (hsaved scope d r' hfrom.toPast (hcr.trans (hd.trans hfrom.reached))).bind fun _ _ h =>
      sat_pure (h.inner hcr hhead)
  · -- a head that ends with a semicolon opens no body
    rintro b ⟨d', p', hd', hpos', hends, -⟩
    obtain ⟨d, hd, hpos, hfrom⟩ := hhead.started
    obtain rfl := hd'.eq_of_offset (hcr.trans hd) (by rw [hpos, hpos'])
    obtain ⟨ts, -, hf⟩ := hfrom.finds .plain rfl
    cases ((hfrom.ends _ _ (.here hf hk (.inl rfl))).unique hends).1

end

/-! ## Elements -/

/-- Everything met between the declarations read so far is saved up to the pause `b`, behind which
`r` stands; `a` is the pause in front of them. -/
structure Saved (c a : Cursor) (ks : List Comment) (es : List Element) (b : Cursor) (r : Reader) :
    Prop where
  follows : ∃ done, r.Follows b done ∧ ∀ t ∈ done, Comment.ofToken t ∈ ks
  opening : Cursor.SavesUpTo ks b a
  elements : ∀ el ∈ es, Node.All (Node.Borders c (Cursor.SavesUpTo ks b)) (.element el)

namespace Saved

variable {es ds : List Element} {k : Kind} {t : Token} {ts : List Token} {d : Cursor} {r' : Reader}

/-- Over an empty statement the pause moves on. -/
theorem semicolon (h : Saved c a ks es b r) (hm : Met b ks js (.delimiter .semicolon) t ts d r')
    (hr : r'.Past e) : Saved c a ks es d (r'.next .plain) := by
  have hk : t.kind = .delimiter .semicolon := (hm.kind _).1 rfl
  obtain ⟨rfl, hnil⟩ := hm.next hr
  refine ⟨⟨[], Reader.follows_self hnil, by simp⟩, h.opening.semicolon hm.found hk, ?_⟩
  exact fun el hel => (h.elements el hel).mono fun _ hn =>
    hn.mono fun _ hb => hb.semicolon hm.found hk

/-- Once the last pause has its comments claimed, all have. -/
theorem all (h : Saved c a ks es b r) (hb : b.SavesAll js) (hk : ks ⊆ js) : AllSaved c a js es :=
  ⟨h.opening.all hb hk, fun el hel => (h.elements el hel).mono fun _ hn =>
    hn.mono fun _ hx => hx.all hb hk⟩

/-- Where a loop ends, the comments in front of the last token become elements. -/
theorem close (h : Saved c a ks es b r) (hm : Met b ks js k t ts d r')
    (hk : k ≠ .delimiter .semicolon) : AllSaved c a (ks ++ js) (es ++ js.map .comment) := by
  have hb := hm.saves hk (List.subset_append_left ks js) (List.subset_append_right ks js)
  obtain ⟨hopen, hes⟩ := h.all hb (List.subset_append_left ks js)
  refine ⟨hopen, List.forall_mem_append.2 ⟨hes, fun el hel => ?_⟩⟩
  obtain ⟨j, -, rfl⟩ := List.mem_map.1 hel
  exact Node.borders_comment j

/-- What is read behind the last pause is appended. -/
theorem append {a' b' : Cursor} (h : Saved c a ks es b r) (hb : b.SavesAll (ks ++ js))
    (h' : Saved c a' js ds b' r') : Saved c a (ks ++ js) (es ++ ds) b' r' := by
  have hjs : js ⊆ ks ++ js := List.subset_append_right _ _
  obtain ⟨ha, hes⟩ := h.all hb (List.subset_append_left _ _)
  obtain ⟨done, hfollows, hdone⟩ := h'.follows
  refine ⟨⟨done, hfollows, fun t ht => hjs (hdone t ht)⟩, ha.upTo, ?_⟩
  refine List.forall_mem_append.2 ⟨fun el hel => ?_, fun el hel => ?_⟩
  · exact (hes el hel).mono fun _ hn => hn.mono fun _ hx => hx.upTo
  · refine (h'.elements el hel).mono fun _ hn => hn.mono fun x hx b'' hb'' => ?_
    exact (hx b'' hb'').imp_left fun hs => hs.mono hjs

/-- More comments may be in the tree, and comments may stand as elements. -/
theorem mono (h : Saved c a ks es b r) (hk : ks ⊆ js)
    (hds : ∀ el ∈ ds, el ∈ es ∨ ∃ k, el = .comment k) : Saved c a js ds b r := by
  have hmono {x : Cursor} (hx : Cursor.SavesUpTo ks b x) : Cursor.SavesUpTo js b x :=
    fun b' hb' => (hx b' hb').imp_left fun hs => hs.mono hk
  obtain ⟨done, hfollows, hdone⟩ := h.follows
  refine ⟨⟨done, hfollows, fun t ht => hk (hdone t ht)⟩, hmono h.opening, fun el hel => ?_⟩
  rcases hds el hel with hel | ⟨k, rfl⟩
  · exact (h.elements el hel).mono fun _ hn => hn.mono fun _ hx => hmono hx
  · exact Node.borders_comment k

end Saved

/-- The pauses of a declaration are those inside it and its end, at which the reader stands. -/
theorem declaration_borders {el : Element} {notes : Notes} (hel : DeclarationRead c e el r)
    (hc : c.Reaches e) (hin : InnerSaved c el) (hextent : el.extent = notes.extent) :
    Node.All (Node.Borders c (Cursor.SavesUpTo (el.mapNotes fun _ => notes).comments r.edge))
      (.element (el.mapNotes fun _ => notes)) := by
  have hbare := hel.declared.bare
  rw [hextent] at hbare
  have hsub : el.comments ⊆ (el.mapNotes fun _ => notes).comments := by
    rw [Element.comments_mapNotes hbare]
    exact List.subset_append_right _ _
  refine Element.borders_intro ?_ ?_
  · rintro b (hb | ⟨-, hb⟩)
    · refine ((hin.opening b ?_).mono hsub).upTo
      cases el with
      | block head body curly n =>
        obtain rfl := Option.some.inj hbare
        exact hb
      | comment k | statement s n | fragment f | file v body => exact hb.elim
    · rw [Element.extent_mapNotes hbare] at hb
      obtain ⟨x, hx, hpos, hedge⟩ := hel.stops
      obtain rfl := hb.unique ⟨x, hc.trans hx, hpos, hedge⟩
      exact Cursor.savesUpTo_self _ _
  · have hbody : (el.mapNotes fun _ => notes).body = el.body := by
      cases el with
      | block head body curly n | comment k | statement s n | fragment f | file v body => rfl
    rw [hbody]
    exact fun d hd => (hin.body d hd).mono fun _ hn => hn.mono fun _ hx => (hx.mono hsub).upTo

/-- A declaration with the comments around it, in front of which nothing is left to claim: its end is
a pause. -/
theorem attach_saves {el : Element} (hel : DeclarationRead c e el r) (hc : c.Reaches e)
    (hin : InnerSaved c el) : Gives (attach ks { extent := el.extent }) r fun n r' =>
      r'.Past r.edge ∧ (∀ k ∈ ks, k ∈ (el.mapNotes fun _ => n.1).comments ∨ k ∈ n.2) ∧
        Saved c r.edge (el.mapNotes fun _ => n.1).comments [el.mapNotes fun _ => n.1] r.edge r' := by
  refine (commentBehind_follows hel.toPast hel.behind).bind ?_
  rintro inline r' ⟨hp, done, hfollows, hdone⟩
  refine sat_pure ⟨hp, ?_⟩
  dsimp only
  generalize hn : ({ leading := ks.filter (isAbove el.extent.start), inline,
                     extent := el.extent } : Notes) = notes
  have hextent : el.extent = notes.extent := by rw [← hn]
  have hmem : ∀ k ∈ notes.comments, k ∈ (el.mapNotes fun _ => notes).comments := by
    have hbare := hel.declared.bare
    rw [hextent] at hbare
    rw [Element.comments_mapNotes hbare]
    exact fun k hk => List.mem_append_left _ hk
  refine ⟨fun k hk => ?_, ⟨done, hfollows, fun t ht => hmem _ ?_⟩, Cursor.savesUpTo_self _ _,
    List.forall_mem_singleton.2 (declaration_borders hel hc hin hextent)⟩
  · by_cases habove : isAbove el.extent.start k = true
    · refine .inl (hmem k ?_)
      rw [← hn]
      exact List.mem_append_left _ (List.mem_filter.2 ⟨hk, habove⟩)
    · exact .inr (List.mem_filter.2 ⟨hk, by simp [habove]⟩)
  · rw [← hn]
    refine List.mem_append_right _ ?_
    rw [hdone]
    exact List.mem_map_of_mem ht

/-- A version with the comments around it makes a file. -/
theorem Saved.version {v : Noted Version} {notes : Notes} {strays : List Comment} {r' : Reader}
    (hks : ∀ k ∈ ks, k ∈ (Element.statement (.version v.item) notes).comments ∨ k ∈ strays)
    (h : Saved c a (Element.statement (.version v.item) notes).comments
      [.statement (.version v.item) notes] b r') :
    ks ⊆ File.comments ⟨some { v with notes }, strays.map .comment⟩ ∧
      Saved c a (File.comments ⟨some { v with notes }, strays.map .comment⟩)
        (File.elements ⟨some { v with notes }, strays.map .comment⟩) b r' := by
  have hall : File.comments ⟨some { v with notes }, strays.map .comment⟩ =
      (Element.statement (.version v.item) notes).comments ++ strays := by
    unfold File.comments File.elements
    rw [Element.commentsAll_append, commentsAll_map_comment, Option.map_some, Option.toList_some,
      Element.commentsAll_cons, Element.commentsAll_nil, List.append_nil]
  rw [hall]
  refine ⟨fun k hk => List.mem_append.2 (hks k hk), ?_⟩
  refine h.mono (List.subset_append_left _ _) fun el hel => ?_
  rcases List.mem_append.1 hel with hel | hel
  · exact .inl hel
  · obtain ⟨k, -, rfl⟩ := List.mem_map.1 hel
    exact .inr ⟨k, rfl⟩

section
variable {body : Scope → Reading Body} (hc : c.Reaches e)
  (hbody : ∀ scope e r, r.Past e → c.Reaches r.edge → Gives (body scope) r (BodyRead c r))
  (hsaved : ∀ scope e r, r.Past e → c.Reaches r.edge → Gives (body scope) r fun b _ =>
    BodySaved c r b)
include hc hbody hsaved

/-- All comments in front of an element are in what is read of it, and its end is a pause. -/
theorem element_saves (opts : Options) (p : Production) (hr : r.Past e) :
    Gives (element opts body true ks p) r fun ds r' => r'.Past r.edge ∧
      ks ⊆ Element.commentsAll ds ∧ ∃ b, Saved c b (Element.commentsAll ds) ds b r' := by
  have hcr := hc.trans hr.reached
  refine ((declaration_gives hc hbody opts p hr).and
    (declaration_saves hc hsaved opts p hr)).bind ?_
  rintro el r₁ ⟨hel, hin⟩
  rw [hel.declared.bare]
  refine (attach_saves hel hcr hin).bind ?_
  rintro ⟨notes, strays⟩ r₂ ⟨hp₂, hks, hsave⟩
  have hall : Element.commentsAll (strays.map .comment ++ [el.mapNotes fun _ => notes]) =
      strays ++ (el.mapNotes fun _ => notes).comments := by
    rw [Element.commentsAll_append, commentsAll_map_comment, Element.commentsAll_cons,
      Element.commentsAll_nil, List.append_nil]
  simp only [if_true]
  refine sat_pure ⟨hel.toPast.trans hp₂, ?_, r₁.edge, ?_⟩
  · rw [hall]
    intro k hk
    rcases hks k hk with hk | hk
    · exact List.mem_append_right _ hk
    · exact List.mem_append_left _ hk
  · rw [hall]
    refine hsave.mono (List.subset_append_right _ _) fun el hel => ?_
    rcases List.mem_append.1 hel with hel | hel
    · obtain ⟨k, -, rfl⟩ := List.mem_map.1 hel
      exact .inr ⟨k, rfl⟩
    · exact .inl hel

end

/-! ## Bodies and files -/

/-- One round keeps what was saved since the pause `a`, and the last one saves everything. -/
theorem bodyRound_saves (opts : Options) (hopts : opts.keepComments = true)
    {nested : Scope → Reading Body} (hc : c.Reaches r.edge)
    (hbody : ∀ scope e r, r.Past e → c.Reaches r.edge → Gives (nested scope) r (BodyRead c r))
    (hsaved : ∀ scope e r, r.Past e → c.Reaches r.edge → Gives (nested scope) r fun b _ =>
      BodySaved c r b)
    (scope : Scope) (curly : Option Comment) {es : List Element} (hr : r.Past e)
    (h : Saved c a (curly.toList ++ Element.commentsAll es) es b r) :
    Gives (bodyRound opts nested scope curly es) r fun x r' => match x with
      | .again es' => r'.Past r.edge ∧
        ∃ b', Saved c a (curly.toList ++ Element.commentsAll es') es' b' r'
      | .done bd => bd.behindCurly = curly ∧
        AllSaved c a (curly.toList ++ Element.commentsAll bd.elements) bd.elements := by
  obtain ⟨done, hfollows, hdone⟩ := h.follows
  refine round_meets hr hfollows hdone fun ks k t ts d r₁ h₁ hm => ?_
  split
  · -- the body ends here
    refine (next_sat .plain).bind ?_
    rintro _ _ ⟨-, rfl⟩
    refine position_sat.bind ?_
    rintro _ _ ⟨rfl, rfl⟩
    rw [if_pos hopts]
    refine sat_pure ⟨rfl, ?_⟩
    dsimp only
    rw [Element.commentsAll_append, commentsAll_map_comment, ← List.append_assoc]
    exact h.close hm (by decide)
  · refine (next_sat .plain).bind ?_
    rintro _ _ ⟨-, rfl⟩
    exact sat_pure ⟨h₁.trans (h₁.next .plain rfl).toPast, d, h.semicolon hm h₁⟩
  · next _ hne =>
    split
    · exact (Keeps.goes (fun _ => keeps_next rfl) h₁).bind fun _ _ _ => gives_reject
    · rw [hopts]
      refine (element_saves hc hbody hsaved opts _ h₁).bind ?_
      rintro ds r₂ ⟨h₂, hks, b', hds⟩
      refine sat_pure ⟨h₁.trans h₂, b', ?_⟩
      rw [Element.commentsAll_append, ← List.append_assoc]
      refine h.append (hm.saves hne (List.subset_append_left _ _) ?_) hds
      exact fun k hk => List.mem_append_right _ (hks hk)

theorem bodyAtMost_saves (opts : Options) (hopts : opts.keepComments = true) (depth : Nat)
    (scope : Scope) (hr : r.Past e) (hc : c.Reaches r.edge) :
    Gives (bodyAtMost opts depth scope) r fun b _ => BodySaved c r b := by
  induction depth generalizing scope e r with
  | zero => exact sat_throw trivial
  | succ depth ih =>
    refine (leftBrace_gives hr _).bind ?_
    rintro _ r₁ ⟨h₁, hends, x, hx, hpos, hedge⟩
    have hc₁ := hc.trans h₁.past.reached
    refine position_sat.bind ?_
    rintro _ r₁ ⟨rfl, rfl⟩
    refine (commentBehind_follows h₁.past h₁.queue).bind ?_
    rintro curly r₂ ⟨h₂, done, hfollows, hdone⟩
    refine sat_repeatFrom (I := fun es r' => r'.Past r₁.edge ∧ ∃ b,
      Saved c r₁.edge (curly.toList ++ Element.commentsAll es) es b r')
      ⟨h₂, r₁.edge, ⟨done, hfollows, fun t ht => ?_⟩, Cursor.savesUpTo_self _ _, by simp⟩
      (fun es r₃ ⟨h₃, b, hsave⟩ => ?_) trivial
    · rw [Element.commentsAll_nil, List.append_nil, hdone]
      exact List.mem_map_of_mem ht
    refine (bodyRound_saves opts hopts (hc₁.trans h₃.reached)
      (fun scope _ _ => bodyAtMost_gives opts depth scope) (fun scope _ _ => ih scope) scope curly h₃
        hsave).mono ?_
    rintro (es' | bd) r₄ h₄
    · exact ⟨h₃.trans h₄.1, h₄.2⟩
    · obtain ⟨rfl, hopen, helements⟩ := h₄
      refine ⟨⟨_, hends, fun a ha => ?_⟩, helements⟩
      obtain rfl := ha.unique ⟨x, hc.trans hx, hpos, hedge⟩
      exact hopen

theorem body_saves (opts : Options) (hopts : opts.keepComments = true) (scope : Scope)
    (hr : r.Past e) (hc : c.Reaches r.edge) :
    Gives (body opts scope) r fun b _ => BodySaved c r b := by
  refine sat_get.bind ?_
  rintro _ _ ⟨rfl, rfl⟩
  exact bodyAtMost_saves opts hopts _ scope hr hc

/-- A version that comes first is read with the comments around it. -/
theorem versionFirst_saves (hr : r.Past e) (hc : c.Reaches r.edge) :
    Gives (do
      let v ← version
      let (notes, strays) ← attach ks v.notes
      return (Round.again { version := some { v with notes }, body := strays.map .comment } :
        Round File File)) r fun x r' => r'.Past r.edge ∧ ∃ f, x = .again f ∧ ks ⊆ f.comments ∧
          ∃ b, Saved c b f.comments f.elements b r' := by
  refine (version_gives hr).bind fun v r₁ h₁ => ?_
  have hdecl : DeclarationRead c r.edge (statement .version v) r₁ :=
    closed_declarationRead h₁ hc (by simp [Statement.parts])
  rw [h₁.bare]
  refine (attach_saves hdecl hc (innerSaved_statement _ _)).bind ?_
  rintro ⟨notes, strays⟩ r₂ ⟨h₂, hks, hds⟩
  obtain ⟨hsub, hnew⟩ := Saved.version hks hds
  exact sat_pure ⟨h₁.toPast.trans h₂, _, rfl, hsub, r₁.edge, hnew⟩

/-- The same of the rounds of a file. -/
theorem fileRound_saves (opts : Options) (hopts : opts.keepComments = true) {f : File}
    (hr : r.Past e) (hc : c.Reaches r.edge) (h : Saved c a f.comments f.elements b r) :
    Gives (fileRound opts f) r fun x r' => match x with
      | .again g => r'.Past r.edge ∧ ∃ b', Saved c a g.comments g.elements b' r'
      | .done g => AllSaved c a g.comments g.elements := by
  obtain ⟨done, hfollows, hdone⟩ := h.follows
  refine round_meets hr hfollows hdone fun ks k t ts d r₁ h₁ hm => ?_
  split
  · -- the text ends here
    refine sat_pure ?_
    dsimp only
    rw [File.comments_append, File.elements_append, commentsAll_map_comment]
    exact h.close hm (by decide)
  · refine (next_sat .plain).bind ?_
    rintro _ _ ⟨-, rfl⟩
    exact sat_pure ⟨h₁.trans (h₁.next .plain rfl).toPast, d, h.semicolon hm h₁⟩
  · split
    · exact (Keeps.goes (fun _ => keeps_next rfl) h₁).bind fun _ _ _ => gives_reject
    · next hfirst =>
      -- nothing else was read before the version
      have hnone : f = {} := by
        obtain ⟨version, body⟩ := f
        simpa using hfirst
      subst hnone
      refine (versionFirst_saves h₁ (hc.trans h₁.reached)).mono ?_
      rintro _ r₂ ⟨h₂, f, rfl, hsub, b', hnew⟩
      rw [File.comments_empty] at hm
      rw [File.comments_empty, File.elements_empty] at h
      exact ⟨h₁.trans h₂, b', h.append (hm.saves (by decide) (List.nil_subset _) hsub) hnew⟩
  · next _ hne _ =>
    split
    · exact (Keeps.goes (fun _ => keeps_next rfl) h₁).bind fun _ _ _ => gives_reject
    · refine (element_saves hc (fun scope _ _ hr hc => body_gives opts scope hr hc)
        (fun scope _ _ hr hc => body_saves opts hopts scope hr hc) opts _ h₁).bind ?_
      rintro ds r₂ ⟨h₂, hks, b', hds⟩
      refine sat_pure ⟨h₁.trans h₂, b', ?_⟩
      rw [File.comments_append, File.elements_append]
      refine h.append (hm.saves hne (List.subset_append_left _ _) ?_) hds
      exact fun k hk => List.mem_append_right _ (hks hk)

theorem file_saves (opts : Options) (hopts : opts.keepComments = true) (hr : r.Past e)
    (hc : c.Reaches r.edge) (hq : r.stream.pending = []) :
    Gives (file opts) r fun f _ => AllSaved c r.edge f.comments f.elements := by
  refine sat_repeatFrom (I := fun f r' => r'.Past r.edge ∧
    ∃ b, Saved c r.edge f.comments f.elements b r')
    ⟨⟨hr.edge_whole, .refl _, hr.rounds, hr.queue⟩, r.edge, ⟨[], Reader.follows_self hq, by simp⟩,
      Cursor.savesUpTo_self _ _, by simp [File.elements_empty]⟩ (fun f r₁ ⟨h₁, b, hsave⟩ => ?_) trivial
  refine (fileRound_saves opts hopts h₁ (hc.trans h₁.reached) hsave).mono ?_
  rintro (g | g) r₂ h₂
  · exact ⟨h₁.trans h₂.1, h₂.2⟩
  · exact h₂

end Grammar

end ProtoIdl
