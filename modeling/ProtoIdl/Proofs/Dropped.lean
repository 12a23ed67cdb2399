import ProtoIdl.Proofs.Grammar.Coupled
import ProtoIdl.Parse
/-!
# Dropping the comments of bodies

A reader that keeps no comments as elements reads what one that keeps them reads, less these
comments. The two claim the same comments at the same places and only differ in what they put into a
body. So one reader is the other with its answer changed, and that is said as an equation of steps:
`Element.dropComments` commutes with every reader that has a body below it. Main statement:
`parse_dropComments`.
-/
namespace ProtoIdl

namespace Element

/-- A comment that stands between declarations. -/
def isComment : Element → Bool
  | .comment _ => true
  | _ => false

mutual
/-- An element without the comments that are elements of its body or of a body below it. -/
def dropComments : Element → Element
  | .block head body behindCurly notes => .block head (dropAll body) behindCurly notes
  | .comment c => .comment c
  | .statement s notes => .statement s notes
  | .fragment g => .fragment g
  | .file version body => .file version body

/-- The elements of a body without the comments among them, and without those below. -/
def dropAll : List Element → List Element
  | [] => []
  | e :: es => if e.isComment then dropAll es else e.dropComments :: dropAll es
end

theorem dropAll_eq (es : List Element) :
    dropAll es = (es.filter fun e => !e.isComment).map dropComments := by
  induction es with
  | nil => rfl
  | cons e es ih =>
    rw [dropAll, ih]
    cases he : e.isComment <;> simp [he]

theorem dropAll_append (es ds : List Element) : dropAll (es ++ ds) = dropAll es ++ dropAll ds := by
  simp only [dropAll_eq, List.filter_append, List.map_append]

theorem dropAll_comments (ks : List Comment) : dropAll (ks.map .comment) = [] := by
  simp [dropAll_eq, List.filter_eq_nil_iff, isComment]

theorem notes?_dropComments (e : Element) : e.dropComments.notes? = e.notes? := by
  cases e <;> rfl

theorem dropComments_mapNotes (f : Notes → Notes) (e : Element) :
    (e.mapNotes f).dropComments = e.dropComments.mapNotes f := by
  cases e <;> rfl

/-- What carries notes is kept. -/
theorem dropAll_noted {e : Element} (h : e.notes?.isSome = true) :
    dropAll [e] = [e.dropComments] := by
  cases e with
  | statement | block => rfl
  | comment | fragment | file => cases h

end Element

/-- A file whose blocks hold no comments between their declarations. Its own body keeps them. -/
def File.dropComments (f : File) : File := { f with body := f.body.map Element.dropComments }

namespace Grammar

/-- A body without the comments between its declarations. -/
def Body.dropComments (b : Body) : Body := { b with elements := Element.dropAll b.elements }

end Grammar

/-! ## Sequences and loops -/

namespace Reading

variable {α β σ τ : Type}

/-- What follows a step is only given what the step can answer. -/
theorem bind_congr_of_sat {x : Reading α} {f g : α → Reading β} {P : α → Prop}
    (hx : ∀ r, Sat x r (fun a _ => P a) fun _ => True) (h : ∀ a, P a → f a = g a) :
    x >>= f = x >>= g := by
  funext r
  cases hr : x r with
  | ok a r' => rw [run_bind hr, run_bind hr, h a ((hx r).ok hr)]
  | error e r' => rw [run_bind_error hr, run_bind_error hr]

theorem outcome_map (f : α → β) (x : Reading α) (r : Reader) :
    ((f <$> x).outcome r).1 = (x.outcome r).1.map f := by
  unfold outcome
  rw [run_map]
  cases x r <;> rfl

/-- The answer of a loop can be changed in every round. -/
theorem map_repeatFrom {g : σ → τ} {f : α → β} {round : σ → Reading (Round σ α)}
    {round' : τ → Reading (Round τ β)} (h : ∀ s, Round.map g f <$> round s = round' (g s)) (s : σ) :
    f <$> repeatFrom s round = repeatFrom (g s) round' := by
  have hmost (n : Nat) (s : σ) : f <$> repeatAtMost round n s = repeatAtMost round' n (g s) := by
    induction n generalizing s with
    | zero => rfl
    | succ n ih =>
      rw [repeatAtMost, repeatAtMost, ← h s, map_bind, bind_map_left]
      refine bind_congr fun a => ?_
      cases a with
      | again s => exact ih s
      | done a => rfl
  unfold repeatFrom
  rw [map_bind]
  exact bind_congr fun r => hmost r.rounds s

end Reading

namespace Grammar

open Reading

/-! ## Elements -/

theorem isSome_notes?_mapNotes (f : Notes → Notes) (e : Element) :
    (e.mapNotes f).notes?.isSome = e.notes?.isSome := by
  cases e <;> rfl

/-- What is attached to a declaration is attached to it without the comments in it as well; the
comments that stay behind are dropped with them. -/
theorem dropAll_attached (keep : Bool) (comments : List Comment) {e : Element}
    (he : e.notes?.isSome = true) : Element.dropAll <$> attached keep comments e =
      attached false comments e.dropComments := by
  unfold attached
  rw [Element.notes?_dropComments, map_bind]
  refine bind_congr fun a => ?_
  have hnoted : Element.dropAll [e.mapNotes fun _ => a.1] =
      [e.dropComments.mapNotes fun _ => a.1] := by
    rw [Element.dropAll_noted ((isSome_notes?_mapNotes _ e).trans he), Element.dropComments_mapNotes]
  cases keep with
  | true => simp [Element.dropAll_append, Element.dropAll_comments, hnoted]
  | false => simp [hnoted]

/-- In the body of a file the comments that stay behind are kept. -/
theorem dropComments_attached (comments : List Comment) (e : Element) :
    List.map Element.dropComments <$> attached true comments e =
      attached true comments e.dropComments := by
  unfold attached
  rw [Element.notes?_dropComments, map_bind]
  refine bind_congr fun a => ?_
  simp [Function.comp_def, Element.dropComments, Element.dropComments_mapNotes]

section
variable (opts : Options) {body body' : Scope → Reading Body}
  (hbody : ∀ scope, Body.dropComments <$> body scope = body' scope)
include hbody

theorem dropComments_block (scope : Scope) (head : Head) (start : Position) :
    Element.dropComments <$> block body scope head start = block body' scope head start := by
  unfold block
  rw [← hbody, map_bind, bind_map_left]
  exact bind_congr fun b => rfl

theorem dropComments_rpc : Element.dropComments <$> rpc body = rpc body' := by
  simp only [rpc, map_bind]
  refine bind_congr fun start => bind_congr fun name => bind_congr fun request =>
    bind_congr fun _ => bind_congr fun response => bind_congr fun kind => ?_
  split
  · rfl
  · rw [map_bind]
    exact bind_congr fun _ => dropComments_block hbody _ _ _
  · rfl

theorem dropComments_declaration (p : Production) :
    Element.dropComments <$> declaration { opts with keepComments := true } body p =
      declaration { opts with keepComments := false } body' p := by
  have hstatement {α : Type} (wrap : α → Statement) (x : Reading (Noted α)) :
      Element.dropComments <$> (do return statement wrap (← x) : Reading Element) =
        (do return statement wrap (← x)) := by
    rw [map_bind]
    exact bind_congr fun _ => rfl
  have hkeyword {α : Type} (k : Keyword) (x : Reading α) (scope : Scope) (head : α → Head) :
      Element.dropComments <$> (do
        let start ← expectKeyword k
        block body scope (head (← x)) start) = (do
        let start ← expectKeyword k
        block body' scope (head (← x)) start) := by
    simp only [map_bind]
    exact bind_congr fun _ => bind_congr fun _ => dropComments_block hbody _ _ _
  cases p with
  | oneof | enum | message | service => exact hkeyword _ _ _ _
  | extend => exact hkeyword _ _ _ fun a : String × Position => .extend a.1
  | rpc => exact dropComments_rpc hbody
  | _ => exact hstatement _ _

theorem dropAll_element (comments : List Comment) (p : Production) :
    Element.dropAll <$> element { opts with keepComments := true } body true comments p =
      element { opts with keepComments := false } body' false comments p := by
  rw [element_eq, element_eq, ← dropComments_declaration opts hbody, map_bind, bind_map_left]
  exact bind_congr_of_sat (declaration_noted _ body p) fun e he => dropAll_attached true comments he

theorem dropComments_element (comments : List Comment) (p : Production) :
    List.map Element.dropComments <$>
        element { opts with keepComments := true } body true comments p =
      element { opts with keepComments := false } body' true comments p := by
  rw [element_eq, element_eq, ← dropComments_declaration opts hbody, map_bind, bind_map_left]
  exact bind_congr fun e => dropComments_attached comments e

/-! ## Bodies and files -/

theorem dropComments_bodyRound (scope : Scope) (curly : Option Comment) (elements : List Element) :
    Round.map Element.dropAll Body.dropComments <$>
        bodyRound { opts with keepComments := true } body scope curly elements =
      bodyRound { opts with keepComments := false } body' scope curly
        (Element.dropAll elements) := by
  unfold bodyRound
  simp only [map_bind]
  refine bind_congr fun comments => bind_congr fun kind => ?_
  split
  · simp only [map_bind]
    refine bind_congr fun _ => bind_congr fun last => ?_
    simp [Round.map, Body.dropComments, Element.dropAll_append, Element.dropAll_comments]
  · rw [map_bind]
    exact bind_congr fun _ => rfl
  · cases scope.production? kind with
    | none =>
      dsimp only
      rw [map_bind]
      exact bind_congr fun _ => rfl
    | some p =>
      dsimp only
      rw [← dropAll_element opts hbody, map_bind, bind_map_left]
      refine bind_congr fun read => ?_
      simp [Round.map, Element.dropAll_append]

end

theorem dropComments_bodyAtMost (opts : Options) (depth : Nat) (scope : Scope) :
    Body.dropComments <$> bodyAtMost { opts with keepComments := true } depth scope =
      bodyAtMost { opts with keepComments := false } depth scope := by
  induction depth generalizing scope with
  | zero => rfl
  | succ depth ih =>
    rw [bodyAtMost, bodyAtMost, bodyWith, bodyWith]
    simp only [map_bind]
    refine bind_congr fun _ => bind_congr fun place => bind_congr fun curly => ?_
    exact map_repeatFrom (dropComments_bodyRound opts ih scope curly) []

theorem dropComments_body (opts : Options) (scope : Scope) :
    Body.dropComments <$> body { opts with keepComments := true } scope =
      body { opts with keepComments := false } scope := by
  unfold body
  rw [map_bind]
  exact bind_congr fun r => dropComments_bodyAtMost opts r.rounds scope

theorem dropComments_fileRound (opts : Options) (f : File) :
    Round.map File.dropComments File.dropComments <$>
        fileRound { opts with keepComments := true } f =
      fileRound { opts with keepComments := false } f.dropComments := by
  have hversion : f.dropComments.version = f.version := rfl
  have hempty : f.dropComments.body.isEmpty = f.body.isEmpty := by simp [File.dropComments]
  unfold fileRound
  simp only [map_bind, hversion, hempty]
  refine bind_congr fun comments => bind_congr fun kind => ?_
  split
  · simp [Round.map, File.dropComments, Element.dropComments, Function.comp_def]
  · rw [map_bind]
    exact bind_congr fun _ => rfl
  · split
    · rw [map_bind]
      exact bind_congr fun _ => rfl
    · simp only [map_bind]
      refine bind_congr fun v => bind_congr fun a => ?_
      simp [Round.map, File.dropComments, Element.dropComments, Function.comp_def]
  · cases Scope.file.production? kind with
    | none =>
      dsimp only
      rw [map_bind]
      exact bind_congr fun _ => rfl
    | some p =>
      dsimp only
      rw [← dropComments_element opts (dropComments_body opts), map_bind, bind_map_left]
      refine bind_congr fun read => ?_
      simp [Round.map, File.dropComments]

theorem dropComments_file (opts : Options) :
    File.dropComments <$> file { opts with keepComments := true } =
      file { opts with keepComments := false } :=
  map_repeatFrom (dropComments_fileRound opts) {}

end Grammar

open Grammar

/-- A reader that keeps no comments between the declarations of a block reads every file as one that
keeps them does: both fail in the same way, or the trees differ in these comments only. -/
theorem parse_dropComments (opts : Options) (bytes : List UInt8) (file : String) :
    parse { opts with keepComments := false } bytes file =
      (parse { opts with keepComments := true } bytes file).map File.dropComments := by
  unfold parse parseWith
  rw [← dropComments_file opts, Reading.outcome_map]

end ProtoIdl
