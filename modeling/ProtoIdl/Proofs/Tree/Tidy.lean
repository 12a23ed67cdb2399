import ProtoIdl.Proofs.Token.Stream
import ProtoIdl.Proofs.Tree.Node
import Mathlib.Order.Basic
import Mathlib.Data.Int.Order.Basic
/-!
# Tidy lists of elements

What holds of every tree that is read: ranges nest and are in order, and comments sit in the slots
around the declarations they belong to. `Node.Sound` states it of one node, in terms of its own range
and of what is directly below it, and `Tidy` of a list of siblings between two offsets. Tidy lists
are closed under concatenation, so a body is tidy if what each round of its loop reads is.
-/
namespace ProtoIdl

/-- The first element ends before the second one starts. -/
def Element.Before (d e : Element) : Prop := d.extent.last.offset < e.extent.start.offset

/-! ## Slots -/

/-- A head that starts at `c` ends at `p`: there is `k`, which is the first semicolon or opening
curly of the tokens from `c` on. -/
inductive Cursor.HeadEnds : Cursor → Delimiter → Position → Prop
  | here {c d e : Cursor} {t : Token} {ts : List Token} {k : Delimiter}
      (ht : c.Finds .plain t ts d e) (hk : t.kind = .delimiter k)
      (hend : k = .semicolon ∨ k = .leftBrace) : HeadEnds c k t.position
  | later {c d e : Cursor} {t : Token} {ts : List Token} {k : Delimiter} {p : Position}
      (ht : c.Finds .plain t ts d e) (hs : t.kind ≠ .delimiter .semicolon)
      (hb : t.kind ≠ .delimiter .leftBrace) (h : HeadEnds e k p) : HeadEnds c k p

/-- A head has one end. -/
theorem Cursor.HeadEnds.unique {c : Cursor} {k k' : Delimiter} {p p' : Position}
    (h : c.HeadEnds k p) (h' : c.HeadEnds k' p') : k = k' ∧ p = p' := by
  induction h with
  | here ht hk hend =>
    cases h' with
    | here ht' hk' =>
      obtain ⟨rfl, -⟩ := ht.unique ht'
      exact ⟨Kind.delimiter.inj (hk.symm.trans hk'), rfl⟩
    | later ht' hs hb =>
      obtain ⟨rfl, -⟩ := ht.unique ht'
      rcases hend with rfl | rfl
      · exact absurd hk hs
      · exact absurd hk hb
  | later ht hs hb _ ih =>
    cases h' with
    | here ht' hk' hend =>
      obtain ⟨rfl, -⟩ := ht.unique ht'
      rcases hend with rfl | rfl
      · exact absurd hk' hs
      · exact absurd hk' hb
    | later ht' _ _ h' =>
      obtain ⟨-, -, -, rfl⟩ := ht.unique ht'
      exact ih h'

/-- A comment in the text that starts at `c`, between two offsets. -/
structure Comment.Lies (c : Cursor) (lo hi : Int) (k : Comment) : Prop where
  start_seen : c.Sees k.extent.start
  last_seen : c.Sees k.extent.last
  lo_le : lo ≤ k.extent.start.offset
  le : k.extent.start.offset ≤ k.extent.last.offset
  lt_hi : k.extent.last.offset < hi

theorem Comment.Lies.mono {c : Cursor} {lo lo' hi hi' : Int} {k : Comment} (h : k.Lies c lo hi)
    (hlo : lo' ≤ lo) (hhi : hi ≤ hi') : k.Lies c lo' hi' :=
  ⟨h.start_seen, h.last_seen, hlo.trans h.lo_le, h.le, h.lt_hi.trans_le hhi⟩

/-- Two occurrences of comments. -/
def Comment.Distinct (j k : Comment) : Prop := j.extent.start.offset ≠ k.extent.start.offset

instance Comment.symm_distinct : Std.Symm Comment.Distinct := ⟨fun _ _ h => h.symm⟩

/-- The comments around a declaration: those that lead it end above its first line, and one behind
it starts on its last line. -/
structure Notes.Slotted (n : Notes) : Prop where
  above : ∀ k ∈ n.leading, k.extent.last.line < n.extent.start.line
  before : ∀ k ∈ n.leading, k.extent.last.offset < n.extent.start.offset
  sorted : n.leading.Pairwise fun j k => j.extent.last.offset < k.extent.start.offset
  behind : ∀ k, n.inline = some k →
    n.extent.last.offset < k.extent.start.offset ∧ k.extent.start.line = n.extent.last.line

/-- Siblings keep their comments apart: the first one has none behind the start of the second, and
if it is a declaration then the second has none before its end. -/
def Element.Apart (d e : Element) : Prop :=
  (∀ k ∈ d.comments, k.extent.last.offset < e.extent.start.offset) ∧
    (d.notes?.isSome → ∀ k ∈ e.comments, d.extent.last.offset < k.extent.start.offset)

/-- What is inside the curlies at `p` and at `last`. -/
structure BodySlots (p : Position) (body : List Element) (behindCurly : Option Comment)
    (last : Position) : Prop where
  elements : ∀ e ∈ body, p.offset < e.extent.start.offset ∧ e.extent.last.offset < last.offset
  comments : ∀ k ∈ Element.commentsAll body,
    p.offset < k.extent.start.offset ∧ k.extent.last.offset < last.offset
  behind : ∀ k, behindCurly = some k → k.extent.start.line = p.line ∧
    p.offset < k.extent.start.offset ∧ k.extent.last.offset < last.offset ∧
      ∀ e ∈ body, k.extent.last.offset < e.extent.start.offset

/-- The comments of an element sit in their slots. A block without a body ends its head with a
semicolon. -/
def Element.Slotted (c : Cursor) : Element → Prop
  | .comment _ => True
  | .statement _ notes => notes.Slotted
  | .block _ body behindCurly notes => notes.Slotted ∧ body.Pairwise Apart ∧
    ∃ d k p, c.Reaches d ∧ d.position = notes.extent.start ∧ d.HeadEnds k p ∧
      notes.extent.start.offset ≤ p.offset ∧
        (k = .semicolon ∧ body = [] ∧ behindCurly = none ∧ p = notes.extent.last ∨
          k = .leftBrace ∧ p.offset < notes.extent.last.offset ∧
            BodySlots p body behindCurly notes.extent.last)
  | .fragment _ | .file _ _ => False

/-! ## Nodes -/

/-- The elements of a body. -/
def Element.body : Element → List Element
  | .block _ body _ _ => body
  | .comment _ | .statement _ _ | .fragment _ | .file _ _ => []

/-- The range of the second node is inside that of the first. -/
def Node.Encloses (n m : Node) : Prop :=
  n.extent.start.offset ≤ m.extent.start.offset ∧ m.extent.last.offset ≤ n.extent.last.offset

/-- A node of the text that starts at `c`, as far as it shows what is directly below it. -/
structure Node.Sound (c : Cursor) (n : Node) : Prop where
  start_seen : c.Sees n.extent.start
  last_seen : c.Sees n.extent.last
  ordered : n.extent.start.offset ≤ n.extent.last.offset
  encloses : ∀ m ∈ n.parts, n.Encloses m
  body : ∀ e, n = .element e → e.body.Pairwise Element.Before ∧ e.Slotted c

/-- What is anywhere below a node is inside its range. -/
theorem Node.All.encloses {c : Cursor} {n : Node} (h : n.All (Node.Sound c)) :
    n.All n.Encloses := by
  suffices ∀ r : Node, r.Encloses n → n.All r.Encloses from this n ⟨le_refl _, le_refl _⟩
  induction h with
  | intro hn _ ih =>
    intro r hr
    refine .intro hr fun m hm => ih m hm r ?_
    have hnm := hn.encloses m hm
    exact ⟨hr.1.trans hnm.1, hnm.2.trans hr.2⟩

/-! ## Siblings -/

/-- Comments one behind the other, between two offsets. -/
structure Row (c : Cursor) (lo hi : Int) (ks : List Comment) : Prop where
  lies : ∀ k ∈ ks, k.Lies c lo hi
  sorted : ks.Pairwise fun j k => j.extent.last.offset < k.extent.start.offset

/-- Siblings in the text that starts at `c`, between two offsets. -/
structure Tidy (c : Cursor) (lo hi : Int) (es : List Element) : Prop where
  le : lo ≤ hi
  sound : ∀ e ∈ es, Node.All (Node.Sound c) (.element e)
  within : ∀ e ∈ es, lo ≤ e.extent.start.offset ∧ e.extent.last.offset < hi
  ordered : es.Pairwise Element.Before
  apart : es.Pairwise Element.Apart
  comments : ∀ k ∈ Element.commentsAll es, k.Lies c lo hi
  distinct : (Element.commentsAll es).Pairwise Comment.Distinct

namespace Row

variable {c : Cursor} {lo hi : Int} {ks js : List Comment}

theorem sublist (h : Row c lo hi ks) (hs : js.Sublist ks) : Row c lo hi js :=
  ⟨fun k hk => h.lies k (hs.subset hk), h.sorted.sublist hs⟩

theorem distinct (h : Row c lo hi ks) : ks.Pairwise Comment.Distinct := by
  refine h.sorted.imp_of_mem fun {j k} hj _ hjk => ?_
  have := (h.lies j hj).le
  unfold Comment.Distinct
  omega

end Row

namespace Tidy

variable {c : Cursor} {lo mid hi : Int} {es ds : List Element} {ks : List Comment}

theorem nil (h : lo ≤ hi) : Tidy c lo hi [] :=
  ⟨h, nofun, nofun, .nil, .nil, by simp, by simp⟩

theorem append (h : Tidy c lo mid es) (h' : Tidy c mid hi ds) : Tidy c lo hi (es ++ ds) where
  le := h.le.trans h'.le
  sound := List.forall_mem_append.2 ⟨h.sound, h'.sound⟩
  within := by
    refine List.forall_mem_append.2 ⟨fun e he => ?_, fun e he => ?_⟩
    · exact ⟨(h.within e he).1, (h.within e he).2.trans_le h'.le⟩
    · exact ⟨h.le.trans (h'.within e he).1, (h'.within e he).2⟩
  ordered := by
    refine List.pairwise_append.2 ⟨h.ordered, h'.ordered, fun d hd e he => ?_⟩
    exact (h.within d hd).2.trans_le (h'.within e he).1
  apart := by
    refine List.pairwise_append.2 ⟨h.apart, h'.apart, fun d hd e he => ⟨fun k hk => ?_, ?_⟩⟩
    · have := h.comments k (Element.mem_commentsAll.2 ⟨d, hd, hk⟩)
      exact this.lt_hi.trans_le (h'.within e he).1
    · intro _ k hk
      have := h'.comments k (Element.mem_commentsAll.2 ⟨e, he, hk⟩)
      exact (h.within d hd).2.trans_le this.lo_le
  comments := by
    rw [Element.commentsAll_append]
    refine List.forall_mem_append.2 ⟨fun k hk => ?_, fun k hk => ?_⟩
    · exact (h.comments k hk).mono (le_refl _) h'.le
    · exact (h'.comments k hk).mono h.le (le_refl _)
  distinct := by
    rw [Element.commentsAll_append]
    refine List.pairwise_append.2 ⟨h.distinct, h'.distinct, fun j hj k hk => ?_⟩
    have hj := h.comments j hj
    have hk := h'.comments k hk
    have := hj.le.trans_lt (hj.lt_hi.trans_le hk.lo_le)
    exact ne_of_lt this

theorem mono {lo' hi' : Int} (h : Tidy c lo hi es) (hlo : lo' ≤ lo) (hhi : hi ≤ hi') :
    Tidy c lo' hi' es where
  le := hlo.trans (h.le.trans hhi)
  sound := h.sound
  within e he := ⟨hlo.trans (h.within e he).1, (h.within e he).2.trans_le hhi⟩
  ordered := h.ordered
  apart := h.apart
  comments k hk := (h.comments k hk).mono hlo hhi
  distinct := h.distinct

end Tidy

theorem commentsAll_map_comment (ks : List Comment) :
    Element.commentsAll (ks.map .comment) = ks := by
  simp [Element.commentsAll_eq, List.flatMap_map, Element.comments]

/-- Comments of a row may stand as elements. -/
theorem Row.tidy {c : Cursor} {lo hi : Int} {ks : List Comment} (h : Row c lo hi ks)
    (hle : lo ≤ hi) : Tidy c lo hi (ks.map .comment) := by
  have hall := commentsAll_map_comment ks
  refine ⟨hle, ?_, ?_, ?_, ?_, by rw [hall]; exact h.lies, ?_⟩
  · intro e he
    obtain ⟨k, hk, rfl⟩ := List.mem_map.1 he
    have hk := h.lies k hk
    refine .intro ⟨hk.start_seen, hk.last_seen, hk.le, nofun, ?_⟩ nofun
    rintro _ ⟨⟩
    exact ⟨.nil, trivial⟩
  · intro e he
    obtain ⟨k, hk, rfl⟩ := List.mem_map.1 he
    have hk := h.lies k hk
    exact ⟨hk.lo_le, hk.lt_hi⟩
  · exact List.pairwise_map.2 h.sorted
  · refine List.pairwise_map.2 (h.sorted.imp fun {j k} hjk => ⟨fun i hi => ?_, nofun⟩)
    rw [Element.comments, List.mem_singleton] at hi
    exact hi ▸ hjk
  · rw [hall]
    exact h.distinct

/-! ## A declaration with the comments around it -/

/-- A declaration as it is read: no comments are attached to it yet, and those in its body are
inside its range. -/
structure Element.Declared (c : Cursor) (lo hi : Int) (e : Element) : Prop where
  bare : e.notes? = some { extent := e.extent }
  sound : Node.All (Node.Sound c) (.element e)
  lo_le : lo ≤ e.extent.start.offset
  lt_hi : e.extent.last.offset < hi
  comments : ∀ k ∈ e.comments, k.Lies c (e.extent.start.offset + 1) e.extent.last.offset
  distinct : e.comments.Pairwise Comment.Distinct

section
variable {c : Cursor} {e : Element} {notes : Notes}

theorem Element.extent_mapNotes (hbare : e.notes? = some { extent := notes.extent }) :
    (e.mapNotes fun _ => notes).extent = e.extent := by
  cases e with
  | statement s n | block head body curly n =>
    obtain rfl := Option.some.inj hbare
    rfl
  | comment k | fragment f | file v body => cases hbare

theorem Element.comments_mapNotes (hbare : e.notes? = some { extent := notes.extent }) :
    (e.mapNotes fun _ => notes).comments = notes.comments ++ e.comments := by
  cases e with
  | statement s n =>
    obtain rfl := Option.some.inj hbare
    simp [mapNotes, comments, Notes.comments]
  | block head body curly n =>
    obtain rfl := Option.some.inj hbare
    simp [mapNotes, comments, Notes.comments]
  | comment k | fragment f | file v body => cases hbare

/-- Attaching comments that sit in their slots keeps a declaration sound. -/
theorem Element.sound_mapNotes (hbare : e.notes? = some { extent := notes.extent })
    (h : Node.All (Node.Sound c) (.element e)) (hs : notes.Slotted) :
    Node.All (Node.Sound c) (.element (e.mapNotes fun _ => notes)) := by
  cases e with
  | statement s n =>
    obtain rfl := Option.some.inj hbare
    obtain ⟨hn, hparts⟩ := h
    refine .intro ⟨hn.start_seen, hn.last_seen, hn.ordered, hn.encloses, ?_⟩ hparts
    rintro _ ⟨⟩
    exact ⟨.nil, hs⟩
  | block head body curly n =>
    obtain rfl := Option.some.inj hbare
    obtain ⟨hn, hparts⟩ := h
    refine .intro ⟨hn.start_seen, hn.last_seen, hn.ordered, hn.encloses, ?_⟩ hparts
    rintro _ ⟨⟩
    obtain ⟨hbody, -, hrest⟩ := hn.body _ rfl
    exact ⟨hbody, hs, hrest⟩
  | comment k | fragment f | file v body => cases hbare

end

/-- A declaration with comments around it. -/
theorem Tidy.noted {c : Cursor} {lo mid last hi : Int} {e : Element} {leading : List Comment}
    {inline : Option Comment} (hle : lo ≤ mid) (hleading : Row c lo mid leading)
    (he : e.Declared c mid last) (hlast : last ≤ hi)
    (hinline : ∀ k, inline = some k → k.Lies c last hi)
    (hs : Notes.Slotted { leading, inline, extent := e.extent }) :
    Tidy c lo hi [e.mapNotes fun _ => { leading, inline, extent := e.extent }] := by
  have hbare : e.notes? = some { extent := e.extent } := he.bare
  generalize hn : ({ leading, inline, extent := e.extent } : Notes) = notes at hs ⊢
  have hextent : e.extent = notes.extent := by rw [← hn]
  rw [hextent] at hbare
  have hext := Element.extent_mapNotes hbare
  have hcom := Element.comments_mapNotes hbare
  have hsound := Element.sound_mapNotes hbare he.sound hs
  have hord : e.extent.start.offset ≤ e.extent.last.offset := he.sound.self.ordered
  have hlo := he.lo_le
  have hhi := he.lt_hi
  refine ⟨by omega, ?_, ?_, List.pairwise_singleton _ _, List.pairwise_singleton _ _, ?_, ?_⟩
  · simpa using hsound
  · rw [List.forall_mem_singleton, hext]
    omega
  · rw [Element.commentsAll_cons, Element.commentsAll_nil, List.append_nil, hcom, ← hn]
    refine List.forall_mem_append.2 ⟨List.forall_mem_append.2 ⟨fun k hk => ?_, fun k hk => ?_⟩, ?_⟩
    · exact (hleading.lies k hk).mono (le_refl _) (by omega)
    · exact (hinline k (Option.mem_toList.1 hk)).mono (by omega) (le_refl _)
    · exact fun k hk => (he.comments k hk).mono (by omega) (by omega)
  · rw [Element.commentsAll_cons, Element.commentsAll_nil, List.append_nil, hcom, ← hn]
    refine List.pairwise_append.2 ⟨List.pairwise_append.2 ⟨hleading.distinct, ?_, ?_⟩,
      he.distinct, ?_⟩
    · cases inline with
      | none => exact .nil
      | some k => exact List.pairwise_singleton _ _
    · intro j hj k hk
      have hj := hleading.lies j hj
      have hk := hinline k (Option.mem_toList.1 hk)
      have := hj.le
      have := hj.lt_hi
      have := hk.lo_le
      unfold Comment.Distinct
      omega
    · intro j hj k hk
      have hk := he.comments k hk
      have := hk.lo_le
      have := hk.le
      have := hk.lt_hi
      unfold Comment.Distinct
      rcases List.mem_append.1 hj with hj | hj
      · have hj := hleading.lies j hj
        have := hj.le
        have := hj.lt_hi
        omega
      · have hj := (hinline j (Option.mem_toList.1 hj)).lo_le
        omega

/-- Comments that are elements may stand behind the comments that lead the next declaration. -/
theorem Tidy.strays {c : Cursor} {lo mid hi : Int} {ks : List Comment} {e : Element}
    (hks : Row c lo mid ks) (he : Tidy c lo hi [e]) (hle : lo ≤ mid)
    (hmid : mid ≤ e.extent.start.offset)
    (hdist : ∀ j ∈ ks, ∀ k ∈ e.comments, j.Distinct k) :
    Tidy c lo hi (ks.map .comment ++ [e]) := by
  have hk := hks.tidy hle
  have hall := commentsAll_map_comment ks
  have hlt := (he.within e (List.mem_singleton_self e)).2
  have hord : e.extent.start.offset ≤ e.extent.last.offset :=
    (he.sound e (List.mem_singleton_self e)).self.ordered
  refine ⟨he.le, List.forall_mem_append.2 ⟨hk.sound, he.sound⟩, ?_, ?_, ?_, ?_, ?_⟩
  · refine List.forall_mem_append.2 ⟨fun d hd => ?_, he.within⟩
    have := hk.within d hd
    omega
  · refine List.pairwise_append.2 ⟨hk.ordered, he.ordered, fun d hd e' he' => ?_⟩
    obtain rfl := List.mem_singleton.1 he'
    exact (hk.within d hd).2.trans_le hmid
  · refine List.pairwise_append.2 ⟨hk.apart, he.apart, fun d hd e' he' => ?_⟩
    obtain rfl := List.mem_singleton.1 he'
    obtain ⟨k, hk, rfl⟩ := List.mem_map.1 hd
    refine ⟨fun j hj => ?_, nofun⟩
    rw [Element.comments, List.mem_singleton] at hj
    exact hj ▸ (hks.lies k hk).lt_hi.trans_le hmid
  · rw [Element.commentsAll_append, hall]
    refine List.forall_mem_append.2 ⟨fun k hk => ?_, he.comments⟩
    exact (hks.lies k hk).mono (le_refl _) (by omega)
  · rw [Element.commentsAll_append, hall]
    refine List.pairwise_append.2 ⟨hks.distinct, he.distinct, fun j hj k hk => ?_⟩
    exact hdist j hj k (by simpa using hk)

end ProtoIdl
