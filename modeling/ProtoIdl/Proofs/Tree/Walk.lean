import ProtoIdl.View.Walk
import Mathlib.Data.List.Basic
/-!
# The places that a walk comes by

A place in a tree is the way that leads to it from the top, step by step. `Element.visitAt?` tells what is
visited at a place, and `trace` is the walk with the place of each visit (`map_visit_trace`). The walk
that skips nothing comes by all places that have a visit, and by no other (`mem_trace`), in their order
(`trace_ordered`): what stands above another place comes before it, and below a declaration its body
comes before its comments. Skipping a kind takes away what is below declarations of that kind
(`trace_skip`).
-/
namespace ProtoIdl

namespace View

/-- A step from an element to something below it. -/
inductive Step
  | version
  | element (i : Nat)
  | leading (i : Nat)
  | inline
  | behindCurly
deriving DecidableEq

/-- Where a step stands among the others that lead down from an element. -/
def Step.rank : Step → Nat × Nat
  | .version => (0, 0)
  | .element i => (1, i)
  | .leading i => (2, i)
  | .inline => (3, 0)
  | .behindCurly => (4, 0)

/-- The order of the steps: the version of a file, the elements of a body, the comments in front, the one
behind and the one behind the curly. -/
def Step.Before (s t : Step) : Prop := Prod.Lex (· < ·) (· < ·) s.rank t.rank

/-- The steps that lead to a place. -/
abbrev Address := List Step

/-- The order of the places: what is above comes before what is below. -/
def Address.Before : Address → Address → Prop := List.Lex Step.Before

/-- A visit and its place. -/
structure Event where
  address : Address
  visit : Visit
deriving DecidableEq

/-- The same visits below a step. -/
def under (s : Step) (events : List Event) : List Event :=
  events.map fun x => { x with address := s :: x.address }

/-- The visits below numbered steps, one after the other. -/
def numbered (step : Nat → Step) : (i : Nat) → List (List Event) → List Event
  | _, [] => []
  | i, events :: rest => under (step i) events ++ numbered step (i + 1) rest

/-- The visit of a comment. -/
def commentEvents (c : Comment) : List Event := [⟨[], visitComment c⟩]

/-- The comments in front of a declaration and the one behind it. -/
def noteEvents (notes : Notes) : List Event :=
  numbered .leading 0 (notes.leading.map commentEvents) ++
    notes.inline.toList.flatMap fun c => under .inline (commentEvents c)

/-- The visit of a declaration and, unless its kind is skipped, what is below it. -/
def eventsUnless (skip : NodeKind → Bool) (v : Visit) (below : List Event) : List Event :=
  ⟨[], v⟩ :: if skip v.kind then [] else below

/-- The visits of a statement. -/
def statementEvents (skip : NodeKind → Bool) (s : Statement) (notes : Notes) : List Event :=
  eventsUnless skip (visitStatement s) (noteEvents notes)

/-- The visits of the version of a file. -/
def versionEvents (skip : NodeKind → Bool) (version : Option (Noted Version)) : List Event :=
  version.toList.flatMap fun v => under .version (statementEvents skip (.version v.item) v.notes)

mutual
/-- The walk over an element, with the place of each visit. -/
def trace (skip : NodeKind → Bool) : Element → List Event
  | .comment c => commentEvents c
  | .statement s notes => statementEvents skip s notes
  | .block head body curly notes =>
    eventsUnless skip (visitHead head) (numbered .element 0 (traces skip body) ++ noteEvents notes ++
      curly.toList.flatMap fun c => under .behindCurly (commentEvents c))
  | .fragment _ => []
  | .file version body => versionEvents skip version ++ numbered .element 0 (traces skip body)

/-- The walks over elements. -/
def traces (skip : NodeKind → Bool) : List Element → List (List Event)
  | [] => []
  | e :: rest => trace skip e :: traces skip rest
end

end View

open View

namespace Element

/-- The visit of an element, unless it is a part of a statement or a file. -/
def visit? : Element → Option Visit
  | .comment c => some (visitComment c)
  | .statement s _ => some (visitStatement s)
  | .block head _ _ _ => some (visitHead head)
  | .fragment _ | .file _ _ => none

/-- What a step leads to. -/
def child? : Step → Element → Option Element
  | .version, .file version _ => version.map fun v => .statement (.version v.item) v.notes
  | .element i, .block _ body _ _ | .element i, .file _ body => body[i]?
  | .leading i, .statement _ notes | .leading i, .block _ _ _ notes => notes.leading[i]?.map .comment
  | .inline, .statement _ notes | .inline, .block _ _ _ notes => notes.inline.map .comment
  | .behindCurly, .block _ _ curly _ => curly.map .comment
  | _, _ => none

/-- What is visited at a place. -/
def visitAt? : Address → Element → Option Visit
  | [], e => e.visit?
  | s :: rest, e => (e.child? s).bind (visitAt? rest)

/-- Whether a declaration above a place is of a kind that is skipped. -/
def hides (skip : NodeKind → Bool) : Address → Element → Bool
  | [], _ => false
  | s :: rest, e => e.visit?.any (skip ·.kind) || (e.child? s).any (hides skip rest)

end Element

namespace View

variable {skip S T : NodeKind → Bool} {s t : Step} {a : Address} {v : Visit} {x : Event}

theorem traces_eq (skip : NodeKind → Bool) (es : List Element) :
    traces skip es = es.map (trace skip) := by
  induction es with
  | nil => rfl
  | cons e rest ih => rw [traces, ih, List.map_cons]

/-! ## The visits of a walk -/

@[simp]
theorem map_visit_under (s : Step) (events : List Event) :
    (under s events).map (·.visit) = events.map (·.visit) := by
  simp [under]

theorem map_visit_numbered (step : Nat → Step) (i : Nat) (l : List (List Event)) :
    (numbered step i l).map (·.visit) = l.flatMap fun events => events.map (·.visit) := by
  induction l generalizing i with
  | nil => rfl
  | cons events rest ih =>
    rw [numbered, List.map_append, map_visit_under, ih, List.flatMap_cons]

theorem map_visit_noteEvents (notes : Notes) :
    (noteEvents notes).map (·.visit) = visitNotes notes := by
  rw [noteEvents, visitNotes, List.map_append, map_visit_numbered, List.map_append]
  congr 1
  · rw [List.flatMap_map]
    exact (List.map_eq_flatMap ..).symm
  · cases notes.inline <;> rfl

@[simp]
theorem map_visit_eventsUnless (v : Visit) (below : List Event) :
    (eventsUnless skip v below).map (·.visit) = visitUnless skip v (below.map (·.visit)) := by
  unfold eventsUnless visitUnless
  split <;> rfl

mutual
/-- The visits are those of the walk. -/
theorem map_visit_trace (skip : NodeKind → Bool) : (e : Element) →
    (trace skip e).map (·.visit) = walk skip e
  | .comment c => rfl
  | .statement s notes => by
    rw [trace, walk, statementEvents, map_visit_eventsUnless, map_visit_noteEvents]
  | .block head body curly notes => by
    rw [trace, walk, map_visit_eventsUnless, List.map_append, List.map_append, map_visit_noteEvents,
      map_visit_numbered, flatMap_traces skip body]
    cases curly <;> rfl
  | .fragment f => rfl
  | .file version body => by
    rw [trace, walk, visitVersion, List.map_append, map_visit_numbered, flatMap_traces skip body]
    cases version with
    | none => rfl
    | some v => simp [versionEvents, statementEvents, map_visit_noteEvents]

theorem flatMap_traces (skip : NodeKind → Bool) : (es : List Element) →
    ((traces skip es).flatMap fun events => events.map (·.visit)) = walkAll skip es
  | [] => rfl
  | e :: rest => by
    rw [traces, List.flatMap_cons, map_visit_trace skip e, flatMap_traces skip rest, walkAll]
end

/-! ## Every place once -/

theorem mem_under {events : List Event} :
    ⟨a, v⟩ ∈ under s events ↔ ∃ b, a = s :: b ∧ ⟨b, v⟩ ∈ events := by
  rw [under, List.mem_map]
  constructor
  · rintro ⟨⟨b, w⟩, hb, heq⟩
    obtain ⟨rfl, rfl⟩ := Event.mk.inj heq
    exact ⟨b, rfl, hb⟩
  · rintro ⟨b, rfl, hb⟩
    exact ⟨_, hb, rfl⟩

theorem mem_numbered {step : Nat → Step} {i : Nat} {l : List (List Event)} :
    ⟨a, v⟩ ∈ numbered step i l ↔
      ∃ j b events, l[j]? = some events ∧ a = step (i + j) :: b ∧ ⟨b, v⟩ ∈ events := by
  induction l generalizing i with
  | nil => simp [numbered]
  | cons events rest ih =>
    rw [numbered, List.mem_append, mem_under, ih]
    constructor
    · rintro (⟨b, ha, hb⟩ | ⟨j, b, x, hx, ha, hb⟩)
      · exact ⟨0, b, events, rfl, ha, hb⟩
      · exact ⟨j + 1, b, x, hx, by rw [ha]; congr 2; omega, hb⟩
    · rintro ⟨j, b, x, hx, ha, hb⟩
      cases j with
      | zero =>
        obtain rfl : events = x := by simpa using hx
        exact .inl ⟨b, ha, hb⟩
      | succ j => exact .inr ⟨j, b, x, by simpa using hx, by rw [ha]; congr 2; omega, hb⟩

theorem mem_commentEvents {c : Comment} :
    ⟨a, v⟩ ∈ commentEvents c ↔ (Element.comment c).visitAt? a = some v := by
  rw [commentEvents, List.mem_singleton, Event.mk.injEq]
  cases a with
  | nil => simpa [Element.visitAt?, Element.visit?] using eq_comm
  | cons s rest => simp [Element.visitAt?, Element.child?]

theorem mem_noteEvents {notes : Notes} : ⟨a, v⟩ ∈ noteEvents notes ↔
    (∃ i b c, a = .leading i :: b ∧ notes.leading[i]? = some c ∧
      (Element.comment c).visitAt? b = some v) ∨
    ∃ b c, a = .inline :: b ∧ notes.inline = some c ∧ (Element.comment c).visitAt? b = some v := by
  rw [noteEvents, List.mem_append, mem_numbered]
  constructor
  · rintro (⟨i, b, events, hevents, ha, hb⟩ | h)
    · rw [List.getElem?_map, Option.map_eq_some_iff] at hevents
      obtain ⟨c, hc, rfl⟩ := hevents
      rw [Nat.zero_add] at ha
      exact .inl ⟨i, b, c, ha, hc, mem_commentEvents.1 hb⟩
    · obtain ⟨c, hc, hmem⟩ := List.mem_flatMap.1 h
      obtain ⟨b, ha, hb⟩ := mem_under.1 hmem
      exact .inr ⟨b, c, ha, Option.mem_toList.1 hc, mem_commentEvents.1 hb⟩
  · rintro (⟨i, b, c, ha, hc, hb⟩ | ⟨b, c, ha, hc, hb⟩)
    · refine .inl ⟨i, b, commentEvents c, ?_, by rw [Nat.zero_add]; exact ha, mem_commentEvents.2 hb⟩
      rw [List.getElem?_map, hc, Option.map_some]
    · exact .inr (List.mem_flatMap.2 ⟨c, Option.mem_toList.2 hc,
        mem_under.2 ⟨b, ha, mem_commentEvents.2 hb⟩⟩)

/-- A declaration that is not skipped. -/
theorem mem_eventsUnless {w : Visit} {below : List Event} :
    ⟨a, v⟩ ∈ eventsUnless (fun _ => false) w below ↔ a = [] ∧ w = v ∨ ⟨a, v⟩ ∈ below := by
  rw [eventsUnless, if_neg Bool.false_ne_true, List.mem_cons, Event.mk.injEq, eq_comm (a := v)]

theorem mem_statementEvents {s : Statement} {notes : Notes} :
    ⟨a, v⟩ ∈ statementEvents (fun _ => false) s notes ↔
      (Element.statement s notes).visitAt? a = some v := by
  rw [statementEvents, mem_eventsUnless, mem_noteEvents]
  cases a with
  | nil => simp [Element.visitAt?, Element.visit?]
  | cons step rest =>
    cases step <;> simp [Element.visitAt?, Element.child?, Option.bind_eq_some_iff]

theorem mem_body {es : List Element} (h : ∀ e ∈ es, ∀ a v,
    ⟨a, v⟩ ∈ trace (fun _ => false) e ↔ e.visitAt? a = some v) :
    ⟨a, v⟩ ∈ numbered .element 0 (traces (fun _ => false) es) ↔
      ∃ i b e, a = .element i :: b ∧ es[i]? = some e ∧ e.visitAt? b = some v := by
  rw [mem_numbered, traces_eq]
  constructor
  · rintro ⟨i, b, events, hevents, ha, hb⟩
    rw [List.getElem?_map, Option.map_eq_some_iff] at hevents
    obtain ⟨e, he, rfl⟩ := hevents
    exact ⟨i, b, e, by rw [ha, Nat.zero_add], he, (h e (List.mem_of_getElem? he) b v).1 hb⟩
  · rintro ⟨i, b, e, ha, he, hb⟩
    refine ⟨i, b, _, ?_, by rw [ha, Nat.zero_add], (h e (List.mem_of_getElem? he) b v).2 hb⟩
    rw [List.getElem?_map, he, Option.map_some]

mutual
/-- The walk that skips nothing comes by the places that have a visit. -/
theorem mem_trace : (e : Element) → (a : Address) → (v : Visit) →
    (⟨a, v⟩ ∈ trace (fun _ => false) e ↔ e.visitAt? a = some v)
  | .comment c, a, v => by rw [trace, mem_commentEvents]
  | .statement s notes, a, v => by rw [trace, mem_statementEvents]
  | .block head body curly notes, a, v => by
    rw [trace, mem_eventsUnless, List.mem_append, List.mem_append, mem_noteEvents,
      mem_body (mem_trace_of_mem body)]
    cases a with
    | nil => simp [Element.visitAt?, Element.visit?, mem_under]
    | cons step rest =>
      cases step <;> simp [Element.visitAt?, Element.child?, Option.bind_eq_some_iff, mem_under,
        mem_commentEvents]
  | .fragment f, a, v => by
    cases a <;> simp [trace, Element.visitAt?, Element.visit?, Element.child?]
  | .file version body, a, v => by
    rw [trace, List.mem_append, versionEvents, mem_body (mem_trace_of_mem body)]
    cases a with
    | nil => simp [Element.visitAt?, Element.visit?, mem_under]
    | cons step rest =>
      cases step <;> simp [Element.visitAt?, Element.child?, Option.bind_eq_some_iff, mem_under,
        mem_statementEvents]

theorem mem_trace_of_mem : (es : List Element) → ∀ e ∈ es, ∀ a v,
    ⟨a, v⟩ ∈ trace (fun _ => false) e ↔ e.visitAt? a = some v
  | [] => nofun
  | e :: rest => List.forall_mem_cons.2 ⟨mem_trace e, mem_trace_of_mem rest⟩
end

/-! ## The order of the places -/

/-- The visits come in the order of their places. -/
def Ordered (events : List Event) : Prop := events.Pairwise fun x y => x.address.Before y.address

/-- The visits come in order, all below steps of the classes `m` to `n`. -/
structure Spans (m n : Nat) (events : List Event) : Prop where
  ordered : Ordered events
  below : ∀ x ∈ events, ∃ s rest, x.address = s :: rest ∧ m ≤ s.rank.1 ∧ s.rank.1 ≤ n

theorem Ordered.under {events : List Event} (s : Step) (h : Ordered events) :
    Ordered (under s events) :=
  List.pairwise_map.2 (h.imp fun hxy => .cons hxy)

theorem spans_nil (m n : Nat) : Spans m n [] := ⟨.nil, nofun⟩

theorem spans_under {m n : Nat} {events : List Event} (s : Step) (h : Ordered events)
    (hm : m ≤ s.rank.1) (hn : s.rank.1 ≤ n) : Spans m n (View.under s events) := by
  refine ⟨h.under s, fun x hx => ?_⟩
  obtain ⟨y, -, rfl⟩ := List.mem_map.1 hx
  exact ⟨s, y.address, rfl, hm, hn⟩

theorem Spans.append {l m n o : Nat} {xs ys : List Event} (hxs : Spans l m xs) (hys : Spans n o ys)
    (hmn : m < n) (hlm : l ≤ m) (hno : n ≤ o) : Spans l o (xs ++ ys) := by
  constructor
  · refine List.pairwise_append.2 ⟨hxs.ordered, hys.ordered, fun x hx y hy => ?_⟩
    obtain ⟨s, a, hs, -, hsm⟩ := hxs.below x hx
    obtain ⟨t, b, ht, hnt, -⟩ := hys.below y hy
    rw [hs, ht]
    exact .rel (Prod.lex_def.2 (.inl (by omega)))
  · intro x hx
    rcases List.mem_append.1 hx with hx | hx
    · obtain ⟨s, a, hs, hl, hm⟩ := hxs.below x hx
      exact ⟨s, a, hs, hl, by omega⟩
    · obtain ⟨s, a, hs, hn, ho⟩ := hys.below x hx
      exact ⟨s, a, hs, by omega, ho⟩

/-- Numbered steps of one class come in the order of their numbers. -/
theorem spans_numbered {step : Nat → Step} {c : Nat} (hstep : ∀ i, (step i).rank = (c, i)) (i : Nat)
    {l : List (List Event)} (h : ∀ events ∈ l, Ordered events) : Spans c c (numbered step i l) := by
  constructor
  · induction l generalizing i with
    | nil => exact .nil
    | cons events rest ih =>
      refine List.pairwise_append.2 ⟨(h events List.mem_cons_self).under _,
        ih (i + 1) fun x hx => h x (List.mem_cons_of_mem _ hx), fun x hx y hy => ?_⟩
      obtain ⟨x', -, rfl⟩ := List.mem_map.1 hx
      obtain ⟨j, b, -, -, hb, -⟩ := mem_numbered.1 hy
      rw [hb]
      refine .rel ?_
      rw [Step.Before, hstep, hstep]
      exact .right _ (by omega)
  · intro x hx
    obtain ⟨j, b, -, -, hb, -⟩ := mem_numbered.1 hx
    have hclass : (step (i + j)).rank.1 = c := congrArg Prod.fst (hstep _)
    exact ⟨_, b, hb, Nat.le_of_eq hclass.symm, Nat.le_of_eq hclass⟩

theorem ordered_commentEvents (c : Comment) : Ordered (commentEvents c) := List.pairwise_singleton ..

theorem spans_flatMap {m n : Nat} {α : Type} (o : Option α) {f : α → List Event}
    (h : ∀ c, Spans m n (f c)) : Spans m n (o.toList.flatMap f) := by
  cases o with
  | none => exact spans_nil m n
  | some c => simpa using h c

theorem spans_noteEvents (notes : Notes) : Spans 2 3 (noteEvents notes) := by
  have hleading : Spans 2 2 (numbered .leading 0 (notes.leading.map commentEvents)) :=
    spans_numbered (fun _ => rfl) 0 (List.forall_mem_map.2 fun c _ => ordered_commentEvents c)
  have hinline : Spans 3 3 (notes.inline.toList.flatMap fun c => under .inline (commentEvents c)) :=
    spans_flatMap _ fun c => spans_under .inline (ordered_commentEvents c) (by decide) (by decide)
  exact hleading.append hinline (by decide) (by decide) (by decide)

/-- A declaration comes before what is below it. -/
theorem ordered_eventsUnless {m n : Nat} {below : List Event} (v : Visit) (h : Spans m n below) :
    Ordered (eventsUnless skip v below) := by
  unfold eventsUnless
  split
  · exact List.pairwise_singleton ..
  · refine List.pairwise_cons.2 ⟨fun x hx => ?_, h.ordered⟩
    obtain ⟨s, a, hs, -⟩ := h.below x hx
    rw [hs]
    exact .nil

theorem ordered_statementEvents (s : Statement) (notes : Notes) :
    Ordered (statementEvents skip s notes) := ordered_eventsUnless _ (spans_noteEvents notes)

theorem spans_body {es : List Element} (h : ∀ e ∈ es, Ordered (trace skip e)) :
    Spans 1 1 (numbered .element 0 (traces skip es)) := by
  rw [traces_eq]
  exact spans_numbered (fun _ => rfl) 0 (List.forall_mem_map.2 h)

/-- Below a block, the elements come first, then the comments on it. -/
theorem spans_block {es : List Element} (h : ∀ e ∈ es, Ordered (trace skip e)) (notes : Notes)
    (curly : Option Comment) :
    Spans 1 4 (numbered .element 0 (traces skip es) ++ noteEvents notes ++
      curly.toList.flatMap fun c => under .behindCurly (commentEvents c)) := by
  have hcurly : Spans 4 4 (curly.toList.flatMap fun c => under .behindCurly (commentEvents c)) :=
    spans_flatMap _ fun c =>
      spans_under .behindCurly (ordered_commentEvents c) (by decide) (by decide)
  have hnoted : Spans 1 3 (numbered .element 0 (traces skip es) ++ noteEvents notes) :=
    (spans_body h).append (spans_noteEvents notes) (by decide) (by decide) (by decide)
  exact hnoted.append hcurly (by decide) (by decide) (by decide)

mutual
/-- A walk comes by the places in their order, whatever it skips. -/
theorem trace_ordered (skip : NodeKind → Bool) : (e : Element) → Ordered (trace skip e)
  | .comment c => ordered_commentEvents c
  | .statement s notes => ordered_statementEvents s notes
  | .block head body curly notes =>
    ordered_eventsUnless _ (spans_block (trace_ordered_of_mem skip body) notes curly)
  | .fragment f => .nil
  | .file version body => by
    have hversion : Spans 0 0 (versionEvents skip version) := spans_flatMap _ fun v =>
      spans_under .version (ordered_statementEvents _ v.notes) (by decide) (by decide)
    exact (hversion.append (spans_body (trace_ordered_of_mem skip body)) (by decide) (by decide)
      (by decide)).ordered

theorem trace_ordered_of_mem (skip : NodeKind → Bool) : (es : List Element) →
    ∀ e ∈ es, Ordered (trace skip e)
  | [] => nofun
  | e :: rest => List.forall_mem_cons.2 ⟨trace_ordered skip e, trace_ordered_of_mem skip rest⟩
end

theorem Step.not_before_self (s : Step) : ¬ s.Before s := by
  rw [Step.Before, Prod.lex_def]
  omega

theorem Address.not_before_self (a : Address) : ¬ a.Before a := by
  induction a with
  | nil => nofun
  | cons s rest ih =>
    rintro (_ | h | h)
    · exact s.not_before_self h
    · exact ih h

/-- No place comes twice. -/
theorem Ordered.nodup {events : List Event} (h : Ordered events) :
    (events.map (·.address)).Nodup := by
  refine List.pairwise_map.2 (h.imp fun {x y} hxy heq => ?_)
  rw [heq] at hxy
  exact y.address.not_before_self hxy

/-! ## Skipping -/

theorem filter_under (p : Event → Bool) (s : Step) (events : List Event) :
    (under s events).filter p =
      under s (events.filter fun x => p { x with address := s :: x.address }) := by
  rw [under, List.filter_map]
  rfl

theorem filter_numbered {step : Nat → Step} {α : Type} {f g : α → List Event} {p : Event → Bool}
    {l : List α} {i : Nat} (h : ∀ j c, l[j]? = some c →
      g c = (f c).filter fun x => p { x with address := step (i + j) :: x.address }) :
    (numbered step i (l.map f)).filter p = numbered step i (l.map g) := by
  induction l generalizing i with
  | nil => rfl
  | cons c rest ih =>
    have hrest := ih (i := i + 1) fun j d hd => by
      rw [h (j + 1) d (by simpa using hd), show i + (j + 1) = i + 1 + j by omega]
    rw [List.map_cons, List.map_cons, numbered, numbered, List.filter_append, filter_under, hrest,
      h 0 c rfl]
    rfl

/-- Below a declaration that is not of a kind that is skipped, hidden is what is hidden in its child. -/
theorem hides_cons {e c : Element} (he : e.visit?.any (T ·.kind) = false) (hc : e.child? s = some c)
    (a : Address) : e.hides T (s :: a) = c.hides T a := by
  rw [Element.hides, he, hc, Option.any_some, Bool.false_or]

theorem hides_of_visit {e : Element} (hv : e.visit? = some v) (hT : T v.kind = true) (s : Step)
    (a : Address) : e.hides T (s :: a) = true := by
  rw [Element.hides, hv, Option.any_some, hT, Bool.true_or]

/-- The visits of an element that are not below a declaration of a kind that is skipped. -/
def shown (T : NodeKind → Bool) (e : Element) (events : List Event) : List Event :=
  events.filter fun x => !e.hides T x.address

theorem shown_append (e : Element) (xs ys : List Event) :
    shown T e (xs ++ ys) = shown T e xs ++ shown T e ys := List.filter_append ..

theorem shown_under {e c : Element} (he : e.visit?.any (T ·.kind) = false) (hc : e.child? s = some c)
    (events : List Event) : shown T e (under s events) = under s (shown T c events) := by
  rw [shown, filter_under]
  simp only [hides_cons he hc]
  rfl

theorem shown_numbered {e : Element} {step : Nat → Step} {α : Type} {f g : α → List Event} {l : List α}
    {child : α → Element} (he : e.visit?.any (T ·.kind) = false)
    (hstep : ∀ i, e.child? (step i) = l[i]?.map child) (h : ∀ c ∈ l, g c = shown T (child c) (f c)) :
    numbered step 0 (l.map g) = shown T e (numbered step 0 (l.map f)) := by
  refine (filter_numbered fun j c hj => ?_).symm
  have hc : e.child? (step (0 + j)) = some (child c) := by
    rw [hstep, Nat.zero_add, hj, Option.map_some]
  simp only [hides_cons he hc]
  exact h c (List.mem_of_getElem? hj)

theorem shown_commentEvents (T : NodeKind → Bool) (c : Comment) :
    commentEvents c = shown T (.comment c) (commentEvents c) := rfl

theorem shown_optional {e : Element} {o : Option Comment} (he : e.visit?.any (T ·.kind) = false)
    (hs : e.child? s = o.map .comment) :
    (o.toList.flatMap fun c => under s (commentEvents c)) =
      shown T e (o.toList.flatMap fun c => under s (commentEvents c)) := by
  cases o with
  | none => rfl
  | some c => simp [shown_under he hs, ← shown_commentEvents]

theorem shown_noteEvents {e : Element} {notes : Notes} (he : e.visit?.any (T ·.kind) = false)
    (hleading : ∀ i, e.child? (.leading i) = notes.leading[i]?.map .comment)
    (hinline : e.child? .inline = notes.inline.map .comment) :
    noteEvents notes = shown T e (noteEvents notes) := by
  rw [noteEvents, shown_append, ← shown_optional he hinline,
    ← shown_numbered he hleading fun c _ => shown_commentEvents T c]

/-- If what is below a declaration shows what it should, so does the declaration. -/
theorem shown_eventsUnless {e : Element} {m n : Nat} {xs ys : List Event} (hST : ∀ k, S k → T k)
    (hv : e.visit? = some v) (hxs : Spans m n xs)
    (h : e.visit?.any (T ·.kind) = false → ys = shown T e xs) :
    eventsUnless T v ys = shown T e (eventsUnless S v xs) := by
  have hhead : ∀ below, shown T e (⟨[], v⟩ :: below) = ⟨[], v⟩ :: shown T e below :=
    fun below => List.filter_cons_of_pos rfl
  rw [eventsUnless, eventsUnless, hhead]
  congr 1
  cases hT : T v.kind with
  | false =>
    have hS : S v.kind = false := Bool.eq_false_iff.2 fun hS => Bool.eq_false_iff.1 hT (hST _ hS)
    rw [hS, if_neg Bool.false_ne_true, if_neg Bool.false_ne_true]
    exact h (by rw [hv, Option.any_some, hT])
  | true =>
    -- everything below the declaration is hidden
    rw [if_pos rfl]
    split
    · rfl
    · refine (List.filter_eq_nil_iff.2 fun x hx => ?_).symm
      obtain ⟨s, rest, hs, -⟩ := hxs.below x hx
      rw [hs, hides_of_visit hv hT]
      decide

theorem shown_statementEvents (hST : ∀ k, S k → T k) (s : Statement) (notes : Notes) :
    statementEvents T s notes = shown T (.statement s notes) (statementEvents S s notes) :=
  shown_eventsUnless hST rfl (spans_noteEvents notes) fun he =>
    shown_noteEvents he (fun _ => rfl) rfl

mutual
/-- Skipping more takes away what is below declarations of the skipped kinds, and nothing else. -/
theorem trace_skip (hST : ∀ k, S k → T k) : (e : Element) → trace T e = shown T e (trace S e)
  | .comment c => shown_commentEvents T c
  | .statement s notes => shown_statementEvents hST s notes
  | .block head body curly notes => by
    have hbelow := spans_block (trace_ordered_of_mem S body) notes curly
    refine shown_eventsUnless hST rfl hbelow fun he => ?_
    rw [shown_append, shown_append, ← shown_optional he rfl, ← shown_noteEvents he (fun _ => rfl) rfl,
      traces_eq, traces_eq,
      ← shown_numbered he (fun _ => Option.map_id'.symm) (trace_skip_of_mem hST body)]
  | .fragment f => rfl
  | .file version body => by
    have hversion : versionEvents T version =
        shown T (.file version body) (versionEvents S version) := by
      cases version with
      | none => rfl
      | some v =>
        simp only [versionEvents, Option.toList_some, List.flatMap_singleton]
        rw [shown_under (c := .statement (.version v.item) v.notes) rfl rfl,
          ← shown_statementEvents hST]
    rw [trace, trace, shown_append, ← hversion, traces_eq, traces_eq,
      ← shown_numbered rfl (fun _ => Option.map_id'.symm) (trace_skip_of_mem hST body)]

theorem trace_skip_of_mem (hST : ∀ k, S k → T k) : (es : List Element) →
    ∀ e ∈ es, trace T e = shown T e (trace S e)
  | [] => nofun
  | e :: rest => List.forall_mem_cons.2 ⟨trace_skip hST e, trace_skip_of_mem hST rest⟩
end

end View

end ProtoIdl
