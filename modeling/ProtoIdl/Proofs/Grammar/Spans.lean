import ProtoIdl.Proofs.Grammar.Past
import ProtoIdl.Proofs.Token.Legible
import ProtoIdl.Proofs.Tree.Tidy
/-!
# Where statements and their parts stand

A name that was read starts behind the reader before it and not behind the current token
(`Reader.Since`). A statement that was read is a range between the readers before and behind it, and
the comments queued meanwhile are in front of its last character (`Reader.Closed`). `Grammar.Closes`
carries that through a statement whose first place is known.
-/
namespace ProtoIdl

/-- The range lies between two cursors. -/
structure Extent.Within (c d : Cursor) (x : Extent) : Prop where
  start : c.Between d x.start
  last : c.Between d x.last
  ordered : x.start.offset ≤ x.last.offset

theorem Extent.Within.mono {c c' d d' : Cursor} {x : Extent} (hc : c'.Reaches c)
    (hd : d.Reaches d') (h : x.Within c d) : x.Within c' d' :=
  ⟨h.start.mono hc hd, h.last.mono hc hd, h.ordered⟩

namespace Reader

/-- What was read from `start` on reaches up to the current token. -/
structure Since (e : Cursor) (start : Position) (r : Reader) : Prop extends Past e r where
  start_spot : e.Between r.edge start
  last_spot : e.Between r.edge r.token.position
  ordered : start.offset ≤ r.token.position.offset

/-- Reading stands right behind the character at `p`, which is not in front of `e`. -/
def Stops (e : Cursor) (p : Position) (r : Reader) : Prop :=
  ∃ b, e.Reaches b ∧ b.position = p ∧ r.edge = b.advance 1

/-- A declaration was read whose range is that of the notes, which hold no comments yet. -/
structure Closed (e : Cursor) (notes : Notes) (r : Reader) : Prop extends Past e r where
  bare : notes = { extent := notes.extent }
  within : notes.extent.Within e r.edge
  behind : ∀ t ∈ r.stream.pending, t.position.offset < notes.extent.last.offset
  stops : r.Stops e notes.extent.last

variable {d e : Cursor} {p start : Position} {r r' : Reader}

theorem Stops.of_reaches (hd : e.Reaches d) : r.Stops d p → r.Stops e p
  | ⟨b, hb, hp, he⟩ => ⟨b, hd.trans hb, hp, he⟩

/-- Reading stops behind a delimiter. -/
theorem Past.stops {k : Delimiter} (h : r.Past e)
    (hk : (r.next .plain).token.kind = .delimiter k) :
    (r.next .plain).Stops r.edge (r.next .plain).token.position := by
  obtain ⟨ts, -, hf⟩ := h.finds .plain rfl
  obtain ⟨hpos, -, hedge⟩ := hf.delimiter hk
  exact ⟨_, hf.passes.reaches, hpos.symm, hedge⟩

theorem Since.of_reaches (h : r.Since d start) (hd : e.Reaches d) : r.Since e start where
  toPast := h.toPast.of_reaches hd
  start_spot := h.start_spot.mono hd (.refl _)
  last_spot := h.last_spot.mono hd (.refl _)
  ordered := h.ordered

theorem Reads.since (h : r.Reads r') : r'.Since r.edge r'.token.position :=
  ⟨h.past, h.spot, h.spot, Int.le_refl _⟩

/-- The name goes on with a token read. -/
theorem Since.reads (h : r.Since e start) (h' : r.Reads r') : r'.Since e start where
  toPast := h.toPast.trans h'.past
  start_spot := h.start_spot.mono (.refl _) h'.past.reached
  last_spot := h'.spot.mono h.reached (.refl _)
  ordered := by
    have := h.start_spot.lt
    have := h'.spot.le
    omega

/-- The name stays as it is when reading goes on without a new token. -/
theorem Since.keep (h : r.Since e start) (h' : r'.Past r.edge) (ht : r'.token = r.token) :
    r'.Since e start where
  toPast := h.toPast.trans h'
  start_spot := h.start_spot.mono (.refl _) h'.reached
  last_spot := ht ▸ h.last_spot.mono (.refl _) h'.reached
  ordered := ht ▸ h.ordered

end Reader

namespace Reading

variable {α β : Type} {e : Cursor} {r : Reader} {mode : Mode}

/-- If the step succeeds, its answer and the reader left satisfy `Q`. -/
abbrev Gives (x : Reading α) (r : Reader) (Q : α → Reader → Prop) : Prop := Sat x r Q fun _ => True

theorem gives_reject {expected : String} {Q : α → Reader → Prop} :
    Gives (reject expected) r Q := reject_sat trivial

theorem gives_reject_bind {expected : String} {f : α → Reading β} {Q : β → Reader → Prop} :
    Gives (reject expected >>= f) r Q :=
  (gives_reject (Q := fun _ _ => False)).bind fun _ _ h => h.elim

/-- Putting back the token just read leaves the token before it, and returns to where it starts. -/
theorem putBack_gives (hm : mode.comments = false) (hr : r.Past e) :
    Gives putBack (r.next mode) fun _ r' => r'.Past r.edge ∧ r'.token = r.token ∧
      r'.edge = (r.next mode).mark ∧ r'.stream.pending = (r.next mode).stream.pending := by
  refine (putBack_sat mode).mono fun _ r' ⟨hback, htoken, hstream⟩ => ?_
  refine ⟨(hr.next mode hm).putBack hback, htoken, ?_, ?_⟩
  · rw [Reader.edge, hstream]
    rfl
  · rw [hstream]

theorem expect_gives (hr : r.Past e) (mode : Mode) (hm : mode.comments = false) (kind : Kind)
    (hk : kind ≠ .illegal) (hk' : kind ≠ .eof) (expected : String) :
    Gives (expect mode kind expected) r fun _ r' =>
      r' = r.next mode ∧ r'.token.kind = kind ∧ r.Reads r' := by
  refine (next_sat mode).bind ?_
  rintro k _ ⟨rfl, rfl⟩
  split
  · next h => exact sat_text ⟨rfl, h, hr.reads mode hm (h ▸ hk) (h ▸ hk')⟩
  · exact gives_reject

theorem expectDelimiter_gives (hr : r.Past e) (d : Delimiter) (expected : String) :
    Gives (expectDelimiter d expected) r fun _ r' => r.Reads r' :=
  (expect_gives hr .plain rfl (.delimiter d) nofun nofun expected).bind
    fun _ _ h => sat_pure h.2.2

theorem expectKeyword_gives (hr : r.Past e) (k : Keyword) :
    Gives (expectKeyword k) r fun p r' => r.Reads r' ∧ p = r'.token.position :=
  (expect_gives hr .keyword rfl (.keyword k) nofun nofun _).bind
    fun _ _ h => position_sat.mono fun _ _ hp => by
      obtain ⟨rfl, rfl⟩ := hp
      exact ⟨h.2.2, rfl⟩

theorem expectIdent_gives (hr : r.Past e) (expected : String) :
    Gives (expectIdent expected) r fun _ r' => r.Reads r' :=
  (expect_gives hr .plain rfl .ident nofun nofun expected).mono fun _ _ h => h.2.2

theorem accept_gives (hr : r.Past e) (d : Delimiter) :
    Gives (accept d) r fun b r' => r'.Past r.edge ∧
      if b then r.Reads r' else r'.token = r.token := by
  refine (next_sat .plain).bind ?_
  rintro k _ ⟨rfl, rfl⟩
  split
  · next h =>
    have hreads := hr.reads .plain rfl (h ▸ nofun) (h ▸ nofun)
    exact sat_pure ⟨hreads.past, hreads⟩
  · exact (putBack_gives rfl hr).bind fun _ _ h => sat_pure ⟨h.1, h.2.1⟩

/-- Behind the keyword reading goes on from there, and else from where it was. -/
theorem optionally_gives {α : Type} (hr : r.Past e) (k : Keyword)
    {f : Option Position → Reading α} {Q : α → Reader → Prop}
    (hnone : ∀ r', r'.Past r.edge → Gives (f none) r' Q)
    (hsome : ∀ r', r.Reads r' → Gives (f (some r'.token.position)) r' Q) :
    Gives (optionally k f) r Q := by
  refine (next_sat .keyword).bind ?_
  rintro kind _ ⟨rfl, rfl⟩
  refine sat_position_bind ?_
  split
  · next h => exact hsome _ (hr.reads .keyword rfl (h ▸ nofun) (h ▸ nofun))
  · exact (putBack_gives rfl hr).bind fun _ r' h => hnone r' h.1

end Reading

namespace Grammar

open Reading

variable {e : Cursor} {start : Position} {r : Reader}

/-! ## Names -/

theorem dotted_gives (h : r.Since e start) (name : String) :
    Gives (dotted name) r fun _ r' => r'.Since e start := by
  refine sat_repeatFrom (I := fun _ r => r.Since e start) h (fun name r h => ?_) trivial
  refine (accept_gives h.toPast .dot).bind ?_
  rintro (_ | _) r' ⟨hp, hr'⟩
  · exact sat_pure (h.keep hp hr')
  · exact (expectIdent_gives hp _).bind fun _ _ hi => sat_pure ((h.reads hr').reads hi)

theorem fullIdent_gives (hr : r.Past e) :
    Gives fullIdent r fun a r' => r'.Since r.edge a.2 := by
  refine (expectIdent_gives hr _).bind fun first r' h => ?_
  refine position_sat.bind ?_
  rintro _ _ ⟨rfl, rfl⟩
  exact (dotted_gives h.since first).bind fun _ _ h => sat_pure h

theorem messageType_gives (hr : r.Past e) :
    Gives messageType r fun a r' => r'.Since r.edge a.2 := by
  refine (accept_gives hr .dot).bind ?_
  rintro (_ | _) r' ⟨hp, hr'⟩
  · exact (fullIdent_gives hp).mono fun _ _ h => h.of_reaches hp.reached
  · have hr' : r.Reads r' := hr'
    refine position_sat.bind ?_
    rintro _ _ ⟨rfl, rfl⟩
    refine (fullIdent_gives hp).bind fun a r'' h => sat_pure ?_
    refine ⟨hp.trans h.toPast, hr'.spot.mono (.refl _) h.reached,
      h.last_spot.mono hp.reached (.refl _), ?_⟩
    have := hr'.spot.lt
    have := h.last_spot.le
    dsimp only
    omega

theorem fieldType_gives (hr : r.Past e) :
    Gives fieldType r fun a r' => r'.Since r.edge a.2 := by
  refine (next_sat .plain).bind ?_
  rintro k _ ⟨rfl, rfl⟩
  refine text_sat.bind ?_
  rintro _ r' ⟨rfl, rfl⟩
  split
  · next h =>
    have hreads := hr.reads .plain rfl (h.1 ▸ nofun) (h.1 ▸ nofun)
    exact sat_position_bind (sat_pure hreads.since)
  · split
    · refine (putBack_gives rfl hr).bind fun _ r' h => ?_
      exact (messageType_gives h.1).mono fun _ _ h' => h'.of_reaches h.1.reached
    · exact gives_reject

/-! ## Endpoints -/

/-- Behind a constant stands the current token. Where a curly comes instead nothing was read. -/
theorem constant?_gives (hr : r.Past e) (curly : Bool) : Gives (constant? curly) r
    fun a r' => r'.Past r.edge ∧ (a.1.isSome → r.edge.Between r'.edge r'.token.position) := by
  refine (next_sat .literal).bind ?_
  rintro k _ ⟨rfl, rfl⟩
  have hp := (hr.next .literal rfl).toPast
  refine position_sat.bind ?_
  rintro _ r' ⟨rfl, hr'⟩
  split
  · next h =>
    have hreads := hr.reads .literal rfl (fun hk => by simp [hk, Kind.isLiteral] at h)
      (fun hk => by simp [hk, Kind.isLiteral] at h)
    subst hr'
    exact sat_text_bind (sat_pure ⟨hreads.past, fun _ => hreads.spot⟩)
  · subst hr'
    split
    case h_1 =>
      refine (putBack_gives rfl hr).bind fun _ r' h => ?_
      refine (fullIdent_gives h.1).bind fun a r'' h' => sat_pure ⟨h.1.trans h'.toPast, fun _ => ?_⟩
      exact h'.last_spot.mono h.1.reached (.refl _)
    case h_4 =>
      split
      · exact (putBack_gives rfl hr).bind fun _ r' h => sat_pure ⟨h.1, nofun⟩
      · exact gives_reject
    case h_5 => exact gives_reject
    -- behind either sign
    all_goals
      refine text_sat.bind ?_
      rintro _ r' ⟨rfl, rfl⟩
      refine (next_sat .literal).bind ?_
      rintro k _ ⟨hk, rfl⟩
      split
      case h_3 => exact gives_reject
      all_goals
        have hreads := hp.reads .literal rfl (hk ▸ nofun) (hk ▸ nofun)
        refine sat_text_bind (sat_pure ⟨hp.trans hreads.past, fun _ => ?_⟩)
        exact hreads.spot.mono hp.reached (.refl _)

section
variable {c : Cursor}

/-- A node without parts and without a body is sound by its range. -/
theorem sound_endpointField {lo hi : Cursor} (hc : c.Reaches lo) {f : EndpointField}
    (h : f.extent.Within lo hi) : Node.All (Node.Sound c) (.endpointField f) :=
  .intro ⟨h.start.sees.of_reaches hc, h.last.sees.of_reaches hc, h.ordered, nofun, nofun⟩ nofun

/-- The parts of an endpoint stand between two places of the text that starts at `c`. -/
def EndpointSpans (c lo hi : Cursor) (ep : Endpoint) : Prop :=
  ∀ n ∈ ep.parts, n.All (Node.Sound c) ∧ n.extent.Within lo hi

theorem EndpointSpans.mono {lo hi lo' hi' : Cursor} {ep : Endpoint} (hlo : lo'.Reaches lo)
    (hhi : hi.Reaches hi') (h : EndpointSpans c lo hi ep) : EndpointSpans c lo' hi' ep :=
  fun n hn => ⟨(h n hn).1, (h n hn).2.mono hlo hhi⟩

theorem EndpointSpans.field {lo hi : Cursor} {ep : Endpoint} {f : EndpointField}
    (hc : c.Reaches lo) (h : EndpointSpans c lo hi ep) (hf : f.extent.Within lo hi) :
    EndpointSpans c lo hi { ep with fields := ep.fields ++ [f] } := by
  intro n hn
  simp only [Endpoint.parts, List.map_append, List.mem_append, List.map_cons, List.map_nil,
    List.mem_singleton] at hn
  rcases hn with (hn | rfl) | hn
  · exact h n (List.mem_append_left _ hn)
  · exact ⟨sound_endpointField hc hf, hf⟩
  · exact h n (List.mem_append_right _ hn)

theorem EndpointSpans.binding {lo hi : Cursor} {ep : Endpoint} {b : Binding}
    (h : EndpointSpans c lo hi ep) (hb : Node.All (Node.Sound c) (.binding b))
    (hw : b.extent.Within lo hi) :
    EndpointSpans c lo hi { ep with bindings := ep.bindings ++ [b] } := by
  intro n hn
  simp only [Endpoint.parts, List.map_append, List.mem_append, List.map_cons, List.map_nil,
    List.mem_singleton] at hn
  rcases hn with hn | hn | rfl
  · exact h n (List.mem_append_left _ hn)
  · exact h n (List.mem_append_right _ hn)
  · exact ⟨hb, hw⟩

/-- An endpoint was read after `r`: its parts stand in front of its last curly, which is the current
token. -/
def EndpointRead (c : Cursor) (r : Reader) (ep : Endpoint) (r' : Reader) : Prop :=
  r'.Past r.edge ∧ ∃ d, r.edge.Reaches d ∧ d.Between r'.edge r'.token.position ∧
    EndpointSpans c r.edge d ep

variable {nested : Reading Endpoint}

theorem endpointField_gives (hr : r.Past e) (hc : c.Reaches r.edge)
    (hn : ∀ e r, r.Past e → c.Reaches r.edge → Gives nested r (EndpointRead c r)) :
    Gives (endpointField nested) r fun f r' => r'.Past r.edge ∧ f.extent.Within r.edge r'.edge := by
  refine (fullIdent_gives hr).bind fun name r₁ h₁ => ?_
  have hc₁ : c.Reaches r₁.edge := hc.trans h₁.reached
  -- the entry ends with the current token, which was read behind its name
  have hend (constant : String) (r₂ : Reader) (hp : r₂.Past r₁.edge)
      (hs : r₁.edge.Between r₂.edge r₂.token.position) : Gives
      (do return { name := name.1, constant, extent := ⟨name.2, ← position⟩ : EndpointField }) r₂
      fun f r' => r'.Past r.edge ∧ f.extent.Within r.edge r'.edge := by
    refine sat_position_bind (sat_pure ⟨h₁.toPast.trans hp, h₁.start_spot.mono (.refl _) hp.reached,
      hs.mono h₁.reached (.refl _), ?_⟩)
    have := h₁.start_spot.lt
    have := hs.le
    dsimp only
    omega
  have hnested (r₂ : Reader) (hp : r₂.Past r₁.edge) : Gives (nested >>= fun ep => do
      return { name := name.1, constant := ep.constant,
               extent := ⟨name.2, ← position⟩ : EndpointField }) r₂
      fun f r' => r'.Past r.edge ∧ f.extent.Within r.edge r'.edge := by
    refine (hn _ r₂ hp (hc₁.trans hp.reached)).bind ?_
    rintro ep r₃ ⟨hp₃, d, hd, hs, -⟩
    exact hend _ r₃ (hp.trans hp₃) (hs.mono (hp.reached.trans hd) (.refl _))
  refine (next_sat .plain).bind ?_
  rintro k _ ⟨rfl, rfl⟩
  split
  · exact (putBack_gives rfl h₁.toPast).bind fun _ r₂ h₂ => hnested r₂ h₂.1
  · have hp₂ := (h₁.toPast.next .plain rfl).toPast
    refine (constant?_gives hp₂ true).bind fun a r₃ ⟨hp₃, hs₃⟩ => ?_
    have hp := hp₂.trans hp₃
    split
    · exact hend _ r₃ hp ((hs₃ rfl).mono hp₂.reached (.refl _))
    · exact hnested r₃ hp
  · exact gives_reject_bind

theorem binding_gives (hr : r.Past e) (hc : c.Reaches e)
    (hs : e.Between r.edge r.token.position)
    (hn : ∀ e r, r.Past e → c.Reaches r.edge → Gives nested r (EndpointRead c r)) :
    Gives (binding nested) r fun b r' => r'.Past r.edge ∧ b.extent.Within e r'.edge ∧
      Node.All (Node.Sound c) (.binding b) := by
  refine position_sat.bind ?_
  rintro _ r ⟨rfl, rfl⟩
  refine (accept_gives hr .colon).bind fun _ r₁ ⟨hp₁, _⟩ => ?_
  refine (hn _ r₁ hp₁ (hc.trans (hr.reached.trans hp₁.reached))).bind ?_
  rintro ep r₂ ⟨hp₂, d, hd, hlast, hep⟩
  have hall := hr.reached.trans (hp₁.reached.trans hd)
  have hlt := hs.lt
  have hle := hlast.le
  have hlo := hp₁.reached.offset_le
  have hmid := hd.offset_le
  have hw : Extent.Within e r₂.edge ⟨r.token.position, r₂.token.position⟩ := by
    refine ⟨hs.mono (.refl _) (hp₁.reached.trans hp₂.reached), hlast.mono hall (.refl _), ?_⟩
    dsimp only
    omega
  refine sat_position_bind (sat_pure
    ⟨hp₁.trans hp₂, hw, .intro ⟨?_, ?_, hw.ordered, ?_, nofun⟩ ?_⟩)
  · exact hw.start.sees.of_reaches hc
  · exact hw.last.sees.of_reaches hc
  · intro m hm
    have hm := (hep m (List.mem_append_left _ hm)).2
    have := hm.start.le
    have := hm.last.lt
    constructor
    · change r.token.position.offset ≤ _
      omega
    · change _ ≤ r₂.token.position.offset
      omega
  · exact fun m hm => (hep m (List.mem_append_left _ hm)).1

theorem endpointAtMost_gives (depth : Nat) (hr : r.Past e) (hc : c.Reaches r.edge) :
    Gives (endpointAtMost depth) r (EndpointRead c r) := by
  induction depth generalizing e r with
  | zero => exact sat_throw trivial
  | succ depth ih =>
    refine (expectDelimiter_gives hr _ _).bind fun _ r₁ h₁ => ?_
    refine sat_repeatFrom (I := fun ep r' => r'.Past r.edge ∧ EndpointSpans c r.edge r'.edge ep)
      ⟨h₁.past, nofun⟩ (fun ep r₂ ⟨hp₂, hep⟩ => ?_) trivial
    have hn (e : Cursor) (r : Reader) := ih (e := e) (r := r)
    refine (next_sat .keyword).bind ?_
    rintro k _ ⟨hk, rfl⟩
    split
    · have hreads := hp₂.reads .keyword rfl (hk ▸ nofun) (hk ▸ nofun)
      exact sat_pure ⟨hp₂.trans hreads.past, r₂.edge, hp₂.reached, hreads.spot, hep⟩
    · have hreads := hp₂.reads .keyword rfl (hk ▸ nofun) (hk ▸ nofun)
      refine (binding_gives hreads.past (hc.trans hp₂.reached) hreads.spot hn).bind ?_
      rintro b r₃ ⟨hp₃, hw, hb⟩
      refine (accept_gives hp₃ .comma).bind fun _ r₄ ⟨hp₄, _⟩ => sat_pure ?_
      have h₂₄ := hreads.past.reached.trans (hp₃.reached.trans hp₄.reached)
      exact ⟨((hp₂.trans hreads.past).trans hp₃).trans hp₄,
        (hep.mono (.refl _) h₂₄).binding hb (hw.mono hp₂.reached hp₄.reached)⟩
    · refine (putBack_gives rfl hp₂).bind fun _ r₃ ⟨hp₃, _⟩ => ?_
      refine (endpointField_gives hp₃ (hc.trans (hp₂.reached.trans hp₃.reached)) hn).bind ?_
      rintro f r₄ ⟨hp₄, hw⟩
      refine (accept_gives hp₄ .comma).bind fun _ r₅ ⟨hp₅, _⟩ => sat_pure ?_
      have h₂₅ := hp₃.reached.trans (hp₄.reached.trans hp₅.reached)
      exact ⟨((hp₂.trans hp₃).trans hp₄).trans hp₅,
        (hep.mono (.refl _) h₂₅).field hc (hw.mono (hp₂.reached.trans hp₃.reached) hp₅.reached)⟩

theorem endpoint_gives (hr : r.Past e) (hc : c.Reaches r.edge) :
    Gives endpoint r (EndpointRead c r) := by
  refine sat_get.bind ?_
  rintro _ r ⟨rfl, rfl⟩
  exact endpointAtMost_gives _ hr hc

end

/-! ## Statements -/

theorem finish_gives (hr : r.Past e) (hs : e.Between r.edge start) :
    Gives (finish start) r fun notes r' => r'.Closed e notes ∧ notes.extent.start = start ∧
      r.edge.Between r'.edge notes.extent.last := by
  refine ((expect_gives hr .plain rfl (.delimiter .semicolon) nofun nofun _).bind
    (Q := fun _ r' => r.Reads r' ∧ r'.Stops r.edge r'.token.position) ?_).bind ?_
  · rintro _ _ ⟨rfl, hk, hreads⟩
    exact sat_pure ⟨hreads, hr.stops hk⟩
  rintro _ r₁ ⟨h₁, hstops⟩
  refine position_sat.bind ?_
  rintro _ _ ⟨rfl, rfl⟩
  refine sat_pure ⟨⟨hr.trans h₁.past, rfl, ⟨hs.mono (.refl _) h₁.past.reached,
    h₁.spot.mono hr.reached (.refl _), ?_⟩, h₁.queue, hstops.of_reaches hr.reached⟩, rfl, h₁.spot⟩
  have := hs.lt
  have := h₁.spot.le
  dsimp only
  omega

/-- What reads the rest of a statement whose first place is `start`. -/
def Closes {α : Type} (start : Position) (x : Reading (Noted α)) : Prop :=
  ∀ e r, r.Past e → e.Between r.edge start → Gives x r fun n r' => r'.Closed e n.notes

section
variable {α β : Type}

theorem closes_noted (item : α) (start : Position) :
    Closes start (do return { item, notes := ← finish start : Noted α }) :=
  fun _ _ hr hs => (finish_gives hr hs).bind fun _ _ h => sat_pure h.1

theorem closes_bind {x : Reading β} (hx : ∀ I, Keeps I x) {f : β → Reading (Noted α)}
    (hf : ∀ a, Closes start (f a)) : Closes start (x >>= f) :=
  fun e _ hr hs => (Keeps.goes hx hr).bind fun a r' hp =>
    hf a e r' (hr.trans hp) (hs.mono (.refl _) hp.reached)

theorem closes_reject_bind (expected : String) {f : β → Reading (Noted α)} :
    Closes start (reject expected >>= f) := fun _ _ _ _ => gives_reject_bind

/-- A statement that starts with a keyword. -/
theorem keyword_gives (k : Keyword) {f : Position → Reading (Noted α)}
    (hf : ∀ start, Closes start (f start)) (hr : r.Past e) :
    Gives (expectKeyword k >>= f) r fun n r' => r'.Closed r.edge n.notes := by
  refine (expectKeyword_gives hr k).bind ?_
  rintro _ r₁ ⟨h₁, rfl⟩
  exact hf _ r.edge r₁ h₁.past h₁.spot

end

theorem version_gives (hr : r.Past e) :
    Gives version r fun n r' => r'.Closed r.edge n.notes := by
  refine keyword_gives _ (fun start => closes_bind (fun _ => keeps_expectDelimiter _ _) fun _ =>
    closes_bind (fun _ => keeps_expect rfl _ _) fun quote => closes_bind (fun _ => keeps_next rfl)
      fun _ => closes_bind (fun _ => keeps_text) fun word => ?_) hr
  split
  · exact closes_reject_bind _
  · refine closes_bind (fun _ => keeps_next rfl) fun kind => closes_bind (fun _ => keeps_text)
      fun closing => ?_
    split
    · exact closes_reject_bind _
    · exact closes_noted _ start

theorem closes_importBehind (visibility : Visibility) (start : Position) (kind : Kind) :
    Closes start (importBehind visibility start kind) := by
  unfold importBehind
  split
  · exact closes_reject_bind _
  · exact closes_bind (fun _ => keeps_text) fun location => closes_noted _ start

theorem importing_gives (hr : r.Past e) :
    Gives importing r fun n r' => r'.Closed r.edge n.notes := by
  rw [importing_eq]
  refine keyword_gives _ (fun start => closes_bind (fun _ => keeps_next rfl) fun kind => ?_) hr
  split
  · exact closes_importBehind _ start kind
  · exact closes_bind (fun _ => keeps_next rfl) fun kind => closes_importBehind _ start kind

theorem package_gives (hr : r.Past e) :
    Gives package r fun n r' => r'.Closed r.edge n.notes :=
  keyword_gives _ (fun start => closes_bind (fun _ => keeps_fullIdent) fun _ =>
    closes_noted _ start) hr

theorem mapField_gives (hr : r.Past e) (opts : Options) :
    Gives (mapField opts) r fun n r' => r'.Closed r.edge n.notes :=
  keyword_gives _ (fun start => closes_bind (fun _ => keeps_expectDelimiter _ _) fun _ =>
    closes_bind (fun _ => keeps_keyType) fun _ =>
      closes_bind (fun _ => keeps_expectDelimiter _ _) fun _ =>
        closes_bind (fun _ => keeps_fieldType) fun _ =>
          closes_bind (fun _ => keeps_expectDelimiter _ _) fun _ =>
            closes_bind (fun _ => keeps_expectIdent _) fun _ =>
              closes_bind (fun _ => keeps_expectDelimiter _ _) fun _ =>
                closes_bind (fun _ => keeps_fieldNumber) fun _ =>
                  closes_bind (fun _ => keeps_settings opts) fun _ => closes_noted _ start) hr

theorem reserved_gives (hr : r.Past e) :
    Gives reserved r fun n r' => r'.Closed r.edge n.notes := by
  refine keyword_gives _ (fun start => closes_bind (fun _ => keeps_peek rfl) fun kind => ?_) hr
  split
  · exact closes_bind (fun _ => keeps_reservedNames) fun _ => closes_noted _ start
  · exact closes_bind (fun _ => keeps_ranges) fun _ => closes_noted _ start

theorem enumField_gives (hr : r.Past e) (opts : Options) :
    Gives (enumField opts) r fun n r' => r'.Closed r.edge n.notes := by
  refine (expectIdent_gives hr _).bind fun name r₁ h₁ => position_sat.bind ?_
  rintro _ _ ⟨rfl, rfl⟩
  refine closes_bind (fun _ => keeps_expectDelimiter _ _) (fun _ => closes_bind
    (fun _ => keeps_next rfl) fun kind => closes_bind (fun _ => keeps_text) fun number => ?_)
      r.edge _ h₁.past h₁.spot
  split
  · exact closes_reject_bind _
  · exact closes_bind (fun _ => keeps_settings opts) fun _ => closes_noted _ _

theorem field_gives (hr : r.Past e) (opts : Options) :
    Gives (field opts) r fun n r' => r'.Closed r.edge n.notes := by
  have hend (isRepeated : Bool) (type : String × Position) (start : Position) :
      Closes start (do
        let name ← expectIdent "fieldName"
        expectDelimiter .equals "="
        let number ← fieldNumber
        let settings ← settings opts
        let notes ← finish start
        return { item := { type := type.1, name, number, isRepeated, settings : Field },
                 notes : Noted Field }) :=
    closes_bind (fun _ => keeps_expectIdent _) fun name =>
      closes_bind (fun _ => keeps_expectDelimiter _ _) fun _ =>
        closes_bind (fun _ => keeps_fieldNumber) fun number =>
          closes_bind (fun _ => keeps_settings opts) fun _ => closes_noted _ start
  rw [field_eq]
  refine optionally_gives hr _ (fun r₁ h₁ => ?_) fun r₁ h₁ => ?_
  · refine (fieldType_gives h₁).bind fun type r₂ h₂ => ?_
    have h₂ := h₂.of_reaches h₁.reached
    exact hend _ type type.2 r.edge r₂ h₂.toPast h₂.start_spot
  · refine (Keeps.goes (fun _ => keeps_fieldType) h₁.past).bind fun type r₂ h₂ => ?_
    exact hend _ type _ r.edge r₂ (h₁.past.trans h₂) (h₁.spot.mono (.refl _) h₂.reached)

/-- The parts of an option are inside its range. -/
theorem option_gives {c : Cursor} (hr : r.Past e) (hc : c.Reaches r.edge) (opts : Options) :
    Gives (option opts) r fun n r' => r'.Closed r.edge n.notes ∧
      ∀ m ∈ (Statement.option n.item).parts, m.All (Node.Sound c) ∧
        n.notes.extent.start.offset ≤ m.extent.start.offset ∧
          m.extent.last.offset ≤ n.notes.extent.last.offset := by
  refine (expectKeyword_gives hr _).bind ?_
  rintro start r₁ ⟨h₁, rfl⟩
  refine (Keeps.goes (fun _ => keeps_optionName) h₁.past).bind fun name r₂ h₂ => ?_
  refine (expectDelimiter_gives h₂ _ _).bind fun _ r₃ h₃ => ?_
  refine (Keeps.goes (fun _ => keeps_constant? _) h₃.past).bind fun a r₄ h₄ => ?_
  have hp₄ := ((h₁.past.trans h₂).trans h₃.past).trans h₄
  have h₁₄ := (h₂.trans h₃.past).trans h₄
  dsimp only
  split
  · refine sat_pure_bind ?_
    refine (finish_gives hp₄ (h₁.spot.mono (.refl _) h₁₄.reached)).bind fun notes r₅ h₅ => ?_
    exact sat_pure ⟨h₅.1, fun m hm => by cases hm⟩
  · refine (endpoint_gives h₄ (hc.trans hp₄.reached)).bind ?_
    rintro ep r₅ ⟨hp₅, d, hd, hs, hep⟩
    refine sat_pure_bind ?_
    refine (finish_gives (hp₄.trans hp₅)
      (h₁.spot.mono (.refl _) (h₁₄.reached.trans hp₅.reached))).bind ?_
    rintro notes r₆ ⟨h₆, hstart, hlast⟩
    refine sat_pure ⟨h₆, fun m hm => ⟨(hep m hm).1, ?_, ?_⟩⟩
    · have := h₁.spot.lt
      have := h₁₄.reached.offset_le
      have := (hep m hm).2.start.le
      rw [hstart]
      omega
    · have := (hep m hm).2.last.lt
      have := hs.lt
      have := hs.le
      have := hlast.le
      dsimp only
      omega

end Grammar

end ProtoIdl
