import ProtoIdl.Proofs.Tree.Tidy
/-!
# No comments inside statements and heads

The comments of a tidy tree sit between declarations and never in them: a comment between the first
token of a statement and its semicolon, or between the first token of a block and the end of its
head, is in no place of the tree. Main statement: `Element.clear_of_sound`.
-/
namespace ProtoIdl

/-- Two places of a text are the same if their offsets are. -/
theorem Cursor.Reaches.eq_of_offset {c d d' : Cursor} (h : c.Reaches d) (h' : c.Reaches d')
    (ho : d.position.offset = d'.position.offset) : d = d' := by
  obtain ⟨m, rfl⟩ := h
  obtain ⟨n, rfl⟩ := h'
  wlog hmn : m ≤ n generalizing m n
  · exact (this n m ho.symm (by omega)).symm
  obtain ⟨k, rfl⟩ := Nat.exists_eq_add_of_le hmn
  rw [advance_add] at ho ⊢
  by_cases hr : (c.advance m).rest = []
  · simp only [advance] at hr ⊢
    simp [hr]
  · rcases Nat.eq_zero_or_pos k with rfl | hk
    · rw [advance_zero]
    · exact absurd ho (ne_of_lt (offset_lt_advance hk hr))

/-- The offset is behind the first character of a statement and in front of its semicolon, or so of
a block and the end of its head. -/
def Element.Interior (c : Cursor) (o : Int) : Element → Prop
  | .statement _ notes => notes.extent.start.offset < o ∧ o < notes.extent.last.offset
  | .block _ _ _ notes => ∃ d k p, c.Reaches d ∧ d.position = notes.extent.start ∧
    d.HeadEnds k p ∧ notes.extent.start.offset < o ∧ o < p.offset
  | .comment _ | .fragment _ | .file _ _ => False

/-- None of the comments is inside the element. -/
def Element.Spares (c : Cursor) (ks : List Comment) (e : Element) : Prop :=
  ∀ k ∈ ks, ¬ e.Interior c k.extent.start.offset

/-- None of the comments is inside the node, if that is an element. -/
def Node.Spares (c : Cursor) (ks : List Comment) (n : Node) : Prop :=
  ∀ e, n = .element e → e.Spares c ks

variable {c : Cursor} {ks : List Comment}

/-- The head of a block ends where the block says. -/
theorem Element.Slotted.head_eq {head : Head} {body : List Element} {curly : Option Comment}
    {notes : Notes} (h : (Element.block head body curly notes).Slotted c) : ∃ p : Position,
      (∀ o, (Element.block head body curly notes).Interior c o →
        notes.extent.start.offset < o ∧ o < p.offset) ∧ p.offset ≤ notes.extent.last.offset ∧
      (body = [] ∧ curly = none ∨ BodySlots p body curly notes.extent.last) := by
  obtain ⟨-, -, d, k, p, hd, hpos, hends, -, hslots⟩ := h
  refine ⟨p, ?_, ?_, ?_⟩
  · rintro o ⟨d', k', p', hd', hpos', hends', hlo, hhi⟩
    obtain rfl := hd.eq_of_offset hd' (by rw [hpos, hpos'])
    exact ⟨hlo, (hends.unique hends').2 ▸ hhi⟩
  · rcases hslots with ⟨-, -, -, rfl⟩ | ⟨-, hlt, -⟩
    · exact le_refl _
    · exact Int.le_of_lt hlt
  · rcases hslots with ⟨-, hbody, hcurly, -⟩ | ⟨-, -, hslots⟩
    · exact .inl ⟨hbody, hcurly⟩
    · exact .inr hslots

/-- The interior of a sound element is in its range. -/
theorem Node.Sound.interior {e : Element} (h : Node.Sound c (.element e)) {o : Int}
    (ho : e.Interior c o) : e.extent.start.offset < o ∧ o < e.extent.last.offset := by
  obtain ⟨-, hs⟩ := h.body e rfl
  cases e with
  | statement s notes => exact ho
  | block head body curly notes =>
    obtain ⟨p, hp, hle, -⟩ := hs.head_eq
    exact ⟨(hp o ho).1, (hp o ho).2.trans_le hle⟩
  | comment k | fragment f | file v body => exact ho.elim

/-- Comments outside the range of a node are inside nothing below it. -/
theorem Node.All.spares {n : Node} (h : n.All (Node.Sound c))
    (hks : ∀ k ∈ ks, k.extent.start.offset ≤ n.extent.start.offset ∨
      n.extent.last.offset ≤ k.extent.start.offset) : n.All (Node.Spares c ks) := by
  induction h with
  | intro hn hparts ih =>
    refine .intro ?_ fun m hm => ih m hm fun k hk => ?_
    · rintro e rfl k hk ho
      have ho := hn.interior ho
      have hk : _ ∨ _ := hks k hk
      simp only [Node.extent] at hk
      omega
    · have hm := hn.encloses m hm
      have := hm.1
      have := hm.2
      have := hks k hk
      omega

theorem Node.All.spares_append {n : Node} {js : List Comment} (h : n.All (Node.Spares c ks))
    (h' : n.All (Node.Spares c js)) : n.All (Node.Spares c (ks ++ js)) := by
  induction h with
  | intro hn _ ih =>
    refine .intro ?_ fun m hm => ih m hm (h'.part m hm)
    exact fun e he => List.forall_mem_append.2 ⟨hn e he, h'.self e he⟩

/-- Siblings that keep their comments apart spare each other's if each spares its own. -/
theorem Element.siblings_spare {es : List Element}
    (hsound : ∀ e ∈ es, Node.All (Node.Sound c) (.element e)) (hapart : es.Pairwise Element.Apart)
    (hle : ∀ k ∈ Element.commentsAll es, k.extent.start.offset ≤ k.extent.last.offset)
    (hown : ∀ e ∈ es, Node.All (Node.Spares c e.comments) (.element e)) :
    ∀ e ∈ es, Node.All (Node.Spares c (Element.commentsAll es)) (.element e) := by
  induction es with
  | nil => simp
  | cons d es ih =>
    rw [commentsAll_cons] at hle ⊢
    obtain ⟨hled, hle⟩ := List.forall_mem_append.1 hle
    obtain ⟨hsd, hsound⟩ := List.forall_mem_cons.1 hsound
    obtain ⟨hownd, hown⟩ := List.forall_mem_cons.1 hown
    obtain ⟨hd, hapart⟩ := List.pairwise_cons.1 hapart
    refine List.forall_mem_cons.2 ⟨hownd.spares_append ?_, fun e he => ?_⟩
    · by_cases hn : d.notes?.isSome
      · refine hsd.spares fun k hk => .inr ?_
        obtain ⟨e, he, hk⟩ := mem_commentsAll.1 hk
        exact Int.le_of_lt ((hd e he).2 hn k hk)
      · cases d with
        | statement s notes | block head body curly notes => simp [notes?] at hn
        | comment k | fragment f | file v body =>
          exact .intro (by rintro _ ⟨⟩ k - ho; exact ho) (by simp [Node.parts, parts])
    · refine Node.All.spares_append ?_ (ih hsound hapart hle hown e he)
      refine (hsound e he).spares fun k hk => .inl ?_
      have := (hd e he).1 k hk
      have := hled k hk
      simp only [Node.extent]
      omega

/-- The comments around a declaration are outside of it. -/
theorem Notes.Slotted.outside {notes : Notes} (h : notes.Slotted)
    (hle : ∀ k ∈ notes.comments, k.extent.start.offset ≤ k.extent.last.offset) :
    ∀ k ∈ notes.comments, k.extent.start.offset ≤ notes.extent.start.offset ∨
      notes.extent.last.offset ≤ k.extent.start.offset := by
  intro k hk
  have := hle k hk
  rcases List.mem_append.1 hk with hk | hk
  · have := h.before k hk
    omega
  · have := (h.behind k (Option.mem_toList.1 hk)).1
    omega

/-- What is behind the opening curly of a block is inside neither its head nor, if its elements are
spared, them. -/
theorem Element.block_spares {head : Head} {body : List Element} {curly : Option Comment}
    {notes : Notes} (h : (block head body curly notes).Slotted c)
    (hks : ∀ p, BodySlots p body curly notes.extent.last →
      ∀ k ∈ ks, p.offset < k.extent.start.offset)
    (hnil : body = [] ∧ curly = none → ks = [])
    (hbody : ∀ e ∈ body, Node.All (Node.Spares c ks) (.element e)) :
    Node.All (Node.Spares c ks) (.element (block head body curly notes)) := by
  obtain ⟨p, hp, -, hslots⟩ := h.head_eq
  refine .intro ?_ (List.forall_mem_append.2 ⟨fun m hm => ?_, fun m hm => ?_⟩)
  · rintro _ ⟨⟩ k hk ho
    have ho := hp _ ho
    rcases hslots with hslots | hslots
    · simp [hnil hslots] at hk
    · have := hks p hslots k hk
      omega
  · -- the parts of a head are no elements and have no parts
    cases head with
    | rpc r =>
      rcases List.mem_cons.1 hm with rfl | hm
      · exact .intro nofun nofun
      · obtain rfl := List.mem_singleton.1 hm
        exact .intro nofun nofun
    | message | enum | oneof | extend | service => cases hm
  · obtain ⟨e, he, rfl⟩ := List.mem_map.1 hm
    exact hbody e he

/-- A sound element has its comments in none of its statements and heads. -/
theorem Element.clear_of_sound {e : Element} (h : Node.All (Node.Sound c) (.element e))
    (hle : ∀ k ∈ e.comments, k.extent.start.offset ≤ k.extent.last.offset) :
    Node.All (Node.Spares c e.comments) (.element e) := by
  generalize hn : Node.element e = n at h
  induction h generalizing e with
  | @intro n hn' hparts ih =>
    subst hn
    have hall : Node.All (Node.Sound c) (.element e) := .intro hn' hparts
    obtain ⟨-, hs⟩ := hn'.body e rfl
    cases e with
    | comment k => exact .intro (by rintro _ ⟨⟩ k - ho; exact ho) nofun
    | fragment f | file v body => exact hs.elim
    | statement s notes =>
      rw [comments] at hle ⊢
      exact hall.spares (Notes.Slotted.outside hs hle)
    | block head body curly notes =>
      rw [comments] at hle ⊢
      obtain ⟨hle, hlebody⟩ := List.forall_mem_append.1 hle
      obtain ⟨hlenotes, hlecurly⟩ := List.forall_mem_append.1 hle
      have hbody (e : Element) (he : e ∈ body) : Node.element e ∈ Node.parts
          (.element (block head body curly notes)) :=
        List.mem_append_right _ (List.mem_map_of_mem he)
      have hnotes := hall.spares (Notes.Slotted.outside hs.1 hlenotes)
      have hcurly : Node.All (Node.Spares c curly.toList)
          (.element (block head body curly notes)) := by
        refine block_spares hs (fun p hp k hk => ?_) (fun h => by simp [h.2]) fun e he => ?_
        · exact (hp.behind k (Option.mem_toList.1 hk)).2.1
        · refine (hparts _ (hbody e he)).spares fun k hk => .inl ?_
          obtain ⟨p, -, -, ⟨rfl, -⟩ | hp⟩ := hs.head_eq
          · cases he
          · have := (hp.behind k (Option.mem_toList.1 hk)).2.2.2 e he
            have := hlecurly k hk
            simp only [Node.extent]
            omega
      have hinner : Node.All (Node.Spares c (commentsAll body))
          (.element (block head body curly notes)) := by
        refine block_spares hs (fun p hp k hk => (hp.comments k hk).1) (fun h => by simp [h.1]) ?_
        refine siblings_spare (fun e he => hparts _ (hbody e he)) hs.2.1 hlebody fun e he => ?_
        exact ih _ (hbody e he) (fun k hk => hlebody k (mem_commentsAll.2 ⟨e, he, hk⟩)) rfl
      exact (hnotes.spares_append hcurly).spares_append hinner

end ProtoIdl
