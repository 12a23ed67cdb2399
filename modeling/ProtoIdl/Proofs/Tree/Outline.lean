import ProtoIdl.Proofs.Tree.Proper
import ProtoIdl.View.Outline
import ProtoIdl.View.Walk
/-!
# The shape of an outline

Of a declaration an outline keeps the label, and the declarations in its body; comments are left out
(`Outlined`). Each label is written on a line of its own, the one of a block in front of those in its
body. The tree is not lost by this: what stands deeper right behind a line is its body, so the blanks in
front of the labels give the tree back (`Outlined.readBack_text`), as long as no label is mistaken for
another layout (`IsLabel`). Main statements: `View.outline_eq` and `Outlined.readBack_text`.
-/
namespace ProtoIdl

open View (Line)

/-- A declaration of which the label is kept, and those in its body. -/
inductive Outlined
  | node (label : String) (body : List Outlined)

mutual
/-- The declaration that an element is, if it is one. -/
def Element.outlined : Element → List Outlined
  | .statement s _ => [.node (View.statementLabel s) []]
  | .block head body _ _ => [.node (View.headLabel head) (Element.outlinedAll body)]
  | .comment _ | .fragment _ | .file _ _ => []

/-- The declarations among the elements. -/
def Element.outlinedAll : List Element → List Outlined
  | [] => []
  | e :: es => e.outlined ++ Element.outlinedAll es
end

namespace Outlined

mutual
/-- The lines of a declaration that has `depth` blocks around it, and of those in its body. -/
def lines (depth : Nat) : Outlined → List Line
  | .node label body => ⟨depth, label⟩ :: linesAll (depth + 1) body

/-- The lines of declarations in a row. -/
def linesAll (depth : Nat) : List Outlined → List Line
  | [] => []
  | t :: ts => t.lines depth ++ linesAll depth ts
end

theorem linesAll_append (depth : Nat) (ts us : List Outlined) :
    linesAll depth (ts ++ us) = linesAll depth ts ++ linesAll depth us := by
  induction ts with
  | nil => rfl
  | cons t ts ih => rw [List.cons_append, linesAll, linesAll, ih, List.append_assoc]

theorem linesAll_singleton (depth : Nat) (t : Outlined) : linesAll depth [t] = t.lines depth := by
  rw [linesAll, linesAll, List.append_nil]

end Outlined

/-! ## The lines of a tree -/

namespace View

open Element (AllProper)
open Outlined (linesAll)

mutual
/-- The lines of a proper element are those of the declaration that it is. -/
theorem outlineOf_eq (scope : Grammar.Scope) (depth : Nat) : (e : Element) → e.Proper scope →
    outlineOf depth e = .ok (linesAll depth e.outlined)
  | .comment _, _ => rfl
  | .statement _ _, _ => rfl
  | .block head body _ _, h => by
    rw [outlineOf, outlineAll_eq head.scope (depth + 1) body h.2, Element.outlined,
      Outlined.linesAll_singleton]
    rfl
  | .fragment _, h => h.elim
  | .file _ _, h => h.elim

theorem outlineAll_eq (scope : Grammar.Scope) (depth : Nat) : (es : List Element) →
    AllProper scope es → outlineAll depth es = .ok (linesAll depth (Element.outlinedAll es))
  | [], _ => rfl
  | e :: es, h => by
    rw [outlineAll, outlineOf_eq scope depth e h.1, outlineAll_eq scope depth es h.2,
      Element.outlinedAll, Outlined.linesAll_append]
    rfl
end

/-- The outline of a file whose bodies hold what they may: the title, and the lines of its
declarations. -/
theorem outline_eq {f : File} (h : AllProper .file f.body) (title : String) :
    outline f title = .ok ("# " ++ (if title = "" then "<input>" else title) ++ "\n" ++
      String.join ((linesAll 0 (Element.outlinedAll f.elements)).map Line.render)) := by
  have hlines : outlineAll 0 f.elements = .ok (linesAll 0 (Element.outlinedAll f.elements)) := by
    have hbody := outlineAll_eq .file 0 f.body h
    unfold File.elements
    cases f.version with
    | none => exact hbody
    | some v =>
      rw [Option.map_some, Option.toList_some, List.singleton_append, outlineAll, outlineOf, hbody]
      rfl
  rw [outline, hlines]
  rfl

/-! ## Lines and visits -/

/-- The visit is none of a comment. -/
def Visit.isDeclaration (v : Visit) : Bool := v.kind != .comment

theorem countP_comments (ks : List Comment) :
    (ks.map visitComment).countP Visit.isDeclaration = 0 := by
  rw [List.countP_eq_zero, List.forall_mem_map]
  rintro k - ⟨⟩

theorem countP_visit {v : Visit} (h : v.isDeclaration = true) (below : List Visit) :
    (visitUnless (fun _ => false) v below).countP Visit.isDeclaration =
      below.countP Visit.isDeclaration + 1 := by
  rw [visitUnless, List.countP_cons_of_pos h]
  rfl

theorem countP_statement (s : Statement) (notes : Notes) :
    (visitUnless (fun _ => false) (visitStatement s) (visitNotes notes)).countP
      Visit.isDeclaration = 1 := by
  have hs : (visitStatement s).isDeclaration = true := by cases s <;> rfl
  rw [countP_visit hs, visitNotes, countP_comments]

mutual
/-- For every line a declaration is visited, and besides comments nothing else is. -/
theorem countP_walk (scope : Grammar.Scope) (depth : Nat) : (e : Element) → e.Proper scope →
    (walk (fun _ => false) e).countP Visit.isDeclaration = (linesAll depth e.outlined).length
  | .comment _, _ => rfl
  | .statement s notes, _ => countP_statement s notes
  | .block head body curly notes, h => by
    have hhead : (visitHead head).isDeclaration = true := by cases head <;> rfl
    rw [walk, countP_visit hhead, List.countP_append, List.countP_append,
      countP_walkAll head.scope (depth + 1) body h.2, visitNotes, countP_comments, countP_comments,
      Element.outlined, Outlined.linesAll_singleton]
    rfl
  | .fragment _, h => h.elim
  | .file _ _, h => h.elim

theorem countP_walkAll (scope : Grammar.Scope) (depth : Nat) : (es : List Element) →
    AllProper scope es → (walkAll (fun _ => false) es).countP Visit.isDeclaration =
      (linesAll depth (Element.outlinedAll es)).length
  | [], _ => rfl
  | e :: es, h => by
    rw [walkAll, List.countP_append, countP_walk scope depth e h.1, countP_walkAll scope depth es h.2,
      Element.outlinedAll, Outlined.linesAll_append, List.length_append]
end

/-- An outline has one line for every visit that is none of a comment. -/
theorem length_linesAll {f : File} (h : AllProper .file f.body) :
    (linesAll 0 (Element.outlinedAll f.elements)).length =
      (walkFile (fun _ => false) f).countP Visit.isDeclaration := by
  have hbody := countP_walkAll .file 0 f.body h
  rw [walkFile, walk, List.countP_append, hbody, File.elements, visitVersion]
  cases f.version with
  | none => exact (Nat.zero_add _).symm
  | some v =>
    rw [Option.toList_some, List.flatMap_singleton, countP_statement, Option.map_some,
      Option.toList_some, List.singleton_append, Element.outlinedAll, Outlined.linesAll_append,
      List.length_append]
    rfl

end View

namespace Outlined

/-! ## Reading a tree back -/

/-- Puts a line in front of declarations at their depths: those that are deeper are its body. -/
def plantLine (l : Line) (behind : List (Nat × Outlined)) : List (Nat × Outlined) :=
  (l.depth, .node l.label ((behind.takeWhile fun t => l.depth < t.1).map (·.2))) ::
    behind.dropWhile fun t => l.depth < t.1

/-- The declarations that the lines tell by their depths. -/
def plant (ls : List Line) : List Outlined := (ls.foldr plantLine []).map (·.2)

mutual
/-- Declarations that are not deeper do not get into the body. -/
theorem foldr_lines : (t : Outlined) → (depth : Nat) → {behind : List (Nat × Outlined)} →
    (∀ x ∈ behind.head?, x.1 ≤ depth) →
      (t.lines depth).foldr plantLine behind = (depth, t) :: behind
  | .node label body, depth, behind, h => by
    have hbody := foldr_linesAll body (depth + 1) fun x hx => Nat.le_succ_of_le (h x hx)
    have hdeeper : ∀ t ∈ body.map fun t => (depth + 1, t), decide (depth < t.1) = true := by
      simp
    have hstop : behind.takeWhile (fun t => decide (depth < t.1)) = [] ∧
        behind.dropWhile (fun t => decide (depth < t.1)) = behind := by
      cases behind with
      | nil => exact ⟨rfl, rfl⟩
      | cons t ts =>
        have ht : ¬ depth < t.1 := Nat.not_lt.2 (h t rfl)
        simp [ht]
    rw [lines, List.foldr_cons, hbody, plantLine]
    dsimp only
    rw [List.takeWhile_append_of_pos hdeeper, List.dropWhile_append_of_pos hdeeper, hstop.1, hstop.2,
      List.append_nil, List.map_map]
    simp [Function.comp_def]

theorem foldr_linesAll : (ts : List Outlined) → (depth : Nat) → {behind : List (Nat × Outlined)} →
    (∀ x ∈ behind.head?, x.1 ≤ depth) →
      (linesAll depth ts).foldr plantLine behind = ts.map (fun t => (depth, t)) ++ behind
  | [], _, _, _ => rfl
  | t :: ts, depth, behind, h => by
    have hrest := foldr_linesAll ts depth h
    have hhead : ∀ x ∈ (ts.map (fun t => (depth, t)) ++ behind).head?, x.1 ≤ depth := by
      cases ts with
      | nil => exact h
      | cons t ts =>
        rintro _ ⟨⟩
        exact Nat.le_refl depth
    rw [linesAll, List.foldr_append, hrest, foldr_lines t depth hhead]
    rfl
end

/-- The depths of the lines tell the tree. -/
theorem plant_linesAll (depth : Nat) (ts : List Outlined) : plant (linesAll depth ts) = ts := by
  rw [plant, foldr_linesAll ts depth (by simp), List.append_nil, List.map_map]
  simp [Function.comp_def]

end Outlined

/-! ## The text of lines -/

/-- The text has no newline. -/
def OneLine (w : String) : Prop := '\n' ∉ w.toList

instance (w : String) : Decidable (OneLine w) := inferInstanceAs (Decidable ('\n' ∉ w.toList))

@[simp]
theorem oneLine_append {v w : String} : OneLine (v ++ w) ↔ OneLine v ∧ OneLine w := by
  simp [OneLine]

theorem oneLine_intercalate {sep : String} {ws : List String} (hsep : OneLine sep)
    (h : ∀ w ∈ ws, OneLine w) : OneLine (sep.intercalate ws) := by
  induction ws with
  | nil => simp [OneLine]
  | cons w ws ih =>
    obtain ⟨hw, hws⟩ := List.forall_mem_cons.1 h
    cases ws with
    | nil => simpa using hw
    | cons v ws =>
      rw [String.intercalate_cons_cons]
      simp [hw, hsep, ih hws]

/-- What may stand behind the blanks of a line. -/
structure IsLabel (w : String) : Prop where
  ne_empty : w ≠ ""
  head : w.toList.head? ≠ some ' '
  oneLine : OneLine w

instance (w : String) : Decidable (IsLabel w) :=
  decidable_of_iff (w ≠ "" ∧ w.toList.head? ≠ some ' ' ∧ OneLine w)
    ⟨fun ⟨hne, hhead, hline⟩ => ⟨hne, hhead, hline⟩, fun h => ⟨h.ne_empty, h.head, h.oneLine⟩⟩

theorem IsLabel.exists_cons {w : String} (h : IsLabel w) :
    ∃ x rest, w.toList = x :: rest ∧ x ≠ ' ' := by
  have hhead := h.head
  obtain ⟨x, rest, hw⟩ : ∃ x rest, w.toList = x :: rest :=
    List.exists_cons_of_ne_nil fun hnil => h.ne_empty (String.toList_eq_nil_iff.1 hnil)
  rw [hw] at hhead
  exact ⟨x, rest, hw, fun hx => hhead (congrArg some hx)⟩

/-- What is put behind a label may start with anything. -/
theorem IsLabel.append {v w : String} (h : IsLabel v) (hw : OneLine w) : IsLabel (v ++ w) := by
  obtain ⟨x, rest, hv, hx⟩ := h.exists_cons
  have hchars : (v ++ w).toList = x :: (rest ++ w.toList) := by simp [hv]
  refine ⟨fun hempty => ?_, ?_, oneLine_append.2 ⟨h.oneLine, hw⟩⟩
  · rw [hempty] at hchars
    cases hchars
  · simp [hchars, hx]

namespace Outlined

/-- A line as it is written, without the newline behind it. -/
def lineChars (l : Line) : List Char := List.replicate (2 * l.depth) ' ' ++ l.label.toList

/-- The line that is written like this. -/
def ofChars (chars : List Char) : Line :=
  ⟨(chars.takeWhile (· == ' ')).length / 2, String.ofList (chars.dropWhile (· == ' '))⟩

/-- The tree that an outline shows behind its title. -/
def readBack (text : String) : List Outlined :=
  plant (((Comment.splitLines text.toList).tail.dropLast).map ofChars)

theorem ofChars_lineChars {l : Line} (h : IsLabel l.label) : ofChars (lineChars l) = l := by
  obtain ⟨x, rest, hlabel, hx⟩ := h.exists_cons
  have hblanks : ∀ c ∈ List.replicate (2 * l.depth) ' ', (c == ' ') = true := by simp
  have hlabel' : String.ofList (x :: rest) = l.label := by rw [← hlabel, String.ofList_toList]
  rw [ofChars, lineChars, hlabel, List.takeWhile_append_of_pos hblanks,
    List.dropWhile_append_of_pos hblanks]
  simp [hx, hlabel']

/-- A line goes up to the first newline. -/
theorem splitLines_line {line : List Char} (h : '\n' ∉ line) (rest : List Char) :
    Comment.splitLines (line ++ '\n' :: rest) = line :: Comment.splitLines rest := by
  induction line with
  | nil => simp [Comment.splitLines]
  | cons c line ih =>
    simp only [List.mem_cons, not_or] at h
    simp [Comment.splitLines, Ne.symm h.1, ih h.2]

theorem splitLines_lines {lines : List (List Char)} (h : ∀ line ∈ lines, '\n' ∉ line) :
    Comment.splitLines (lines.flatMap (· ++ ['\n'])) = lines ++ [[]] := by
  induction lines with
  | nil => rfl
  | cons line lines ih =>
    obtain ⟨hline, hlines⟩ := List.forall_mem_cons.1 h
    rw [List.flatMap_cons, List.append_assoc, List.singleton_append, splitLines_line hline, ih hlines]
    rfl

section
variable {text : String} {first : List Char} {ls : List Line}

/-- A title and lines make a text with a newline behind each of them. -/
theorem toList_text (title : String) (ls : List Line) :
    (title ++ "\n" ++ String.join (ls.map Line.render)).toList =
      (title.toList :: ls.map lineChars).flatMap (· ++ ['\n']) := by
  have hnewline : "\n".toList = ['\n'] := rfl
  have hlines : (String.join (ls.map Line.render)).toList =
      (ls.map lineChars).flatMap (· ++ ['\n']) := by
    induction ls with
    | nil => rfl
    | cons l ls ih =>
      rw [List.map_cons, List.map_cons, String.join_cons, String.toList_append, ih,
        List.flatMap_cons]
      simp [Line.render, lineChars, hnewline]
  rw [String.toList_append, hlines, String.toList_append, hnewline, List.flatMap_cons]

variable (htext : text.toList = (first :: ls.map lineChars).flatMap (· ++ ['\n']))
  (hfirst : '\n' ∉ first) (hls : ∀ l ∈ ls, IsLabel l.label)
include htext hfirst hls

/-- The newlines tell the lines of an outline. -/
theorem splitLines_text : Comment.splitLines text.toList = first :: ls.map lineChars ++ [[]] := by
  rw [htext]
  refine splitLines_lines (List.forall_mem_cons.2 ⟨hfirst, List.forall_mem_map.2 fun l hl => ?_⟩)
  have hlabel : '\n' ∉ l.label.toList := (hls l hl).oneLine
  simp [lineChars, hlabel]

/-- An outline shows the tree that its lines tell. -/
theorem readBack_text : readBack text = plant ls := by
  have hlines : ls.map (ofChars ∘ lineChars) = ls :=
    List.map_congr_left (fun l hl => ofChars_lineChars (hls l hl)) |>.trans (List.map_id ls)
  rw [readBack, splitLines_text htext hfirst hls, List.cons_append, List.tail_cons,
    List.dropLast_concat, List.map_map, hlines]

end

end Outlined

end ProtoIdl
