import ProtoIdl.Tree.Declaration
/-!
# The nodes of a file

Whatever carries an extent is a node of the tree: elements, and the parts of statements and heads.
`File.Has` says that a node is somewhere in a file, and `Node.All` that a property holds of a node
and of everything below it. `File.comments` lists every place of the tree that holds a comment.
-/
namespace ProtoIdl

/-- What carries an extent. -/
inductive Node
  | element (e : Element)
  | rpcType (t : RpcType)
  | endpointField (f : EndpointField)
  | binding (b : Binding)

/-- The place of an element. Fragments and files have none; they are not read. -/
def Element.extent : Element → Extent
  | .comment c => c.extent
  | .statement _ notes | .block _ _ _ notes => notes.extent
  | .fragment _ | .file _ _ => {}

/-- The fields and the bindings of an endpoint. -/
def Endpoint.parts (e : Endpoint) : List Node :=
  e.fields.map .endpointField ++ e.bindings.map .binding

/-- The parts of a statement: those of the endpoint of an option. -/
def Statement.parts : Statement → List Node
  | .option { endpoint := some e, .. } => e.parts
  | _ => []

/-- The parts of a head: the types of an rpc. -/
def Head.parts : Head → List Node
  | .rpc r => [.rpcType r.request, .rpcType r.response]
  | _ => []

/-- The nodes directly below an element. -/
def Element.parts : Element → List Node
  | .statement s _ => s.parts
  | .block head body _ _ => head.parts ++ body.map .element
  | .comment _ | .fragment _ | .file _ _ => []

namespace Node

def extent : Node → Extent
  | .element e => e.extent
  | .rpcType t => t.extent
  | .endpointField f => f.extent
  | .binding b => b.extent

/-- The nodes directly below a node. -/
def parts : Node → List Node
  | .element e => e.parts
  | .binding b => b.fields.map .endpointField
  | .rpcType _ | .endpointField _ => []

/-- The property holds of a node and of everything below it. -/
inductive All (P : Node → Prop) : Node → Prop
  | intro {n : Node} (h : P n) (hparts : ∀ m ∈ n.parts, All P m) : All P n

variable {P Q : Node → Prop} {n : Node}

theorem All.self : All P n → P n
  | .intro h _ => h

theorem All.part : All P n → ∀ m ∈ n.parts, All P m
  | .intro _ hparts => hparts

theorem All.mono (hpq : ∀ n, P n → Q n) (h : All P n) : All Q n := by
  induction h with
  | intro h _ ih => exact .intro (hpq _ h) ih

end Node

/-- The node is somewhere in the file. -/
inductive File.Has (f : File) : Node → Prop
  | top {e : Element} (h : e ∈ f.elements) : Has f (.element e)
  | part {n m : Node} (h : Has f n) (hm : m ∈ n.parts) : Has f m

/-- What holds of all elements and everything below them holds of every node of the file. -/
theorem File.Has.all {f : File} {P : Node → Prop} (hf : ∀ e ∈ f.elements, Node.All P (.element e))
    {n : Node} (h : f.Has n) : Node.All P n := by
  induction h with
  | top h => exact hf _ h
  | part _ hm ih => exact ih.part _ hm

/-! ## Comments -/

/-- The comments that a declaration is surrounded by. -/
def Notes.comments (n : Notes) : List Comment := n.leading ++ n.inline.toList

mutual
/-- The comments that an element holds, in whatever place. -/
def Element.comments : Element → List Comment
  | .comment c => [c]
  | .statement _ notes => notes.comments
  | .block _ body behindCurly notes =>
    notes.comments ++ behindCurly.toList ++ Element.commentsAll body
  | .fragment _ => []
  | .file version body =>
    ((version.map fun v => v.notes.comments).getD []) ++ Element.commentsAll body

/-- The comments of a list of elements. -/
def Element.commentsAll : List Element → List Comment
  | [] => []
  | e :: es => e.comments ++ Element.commentsAll es
end

/-- All comments of a file, once for each place of the tree that holds one. -/
def File.comments (f : File) : List Comment := Element.commentsAll f.elements

namespace Element

@[simp]
theorem commentsAll_nil : commentsAll [] = [] := by rw [commentsAll]

@[simp]
theorem commentsAll_cons (e : Element) (es : List Element) :
    commentsAll (e :: es) = e.comments ++ commentsAll es := by rw [commentsAll]

theorem commentsAll_eq (es : List Element) : commentsAll es = es.flatMap comments := by
  induction es with
  | nil => simp
  | cons e es ih => simp [ih]

theorem commentsAll_append (es ds : List Element) :
    commentsAll (es ++ ds) = commentsAll es ++ commentsAll ds := by
  simp [commentsAll_eq]

theorem mem_commentsAll {k : Comment} {es : List Element} :
    k ∈ commentsAll es ↔ ∃ e ∈ es, k ∈ e.comments := by
  simp [commentsAll_eq]

end Element

namespace File

theorem elements_empty : elements {} = [] := rfl

theorem comments_empty : comments {} = [] := Element.commentsAll_nil

theorem elements_append (f : File) (ds : List Element) :
    elements { f with body := f.body ++ ds } = f.elements ++ ds := by
  unfold elements
  rw [List.append_assoc]

theorem comments_append (f : File) (ds : List Element) :
    comments { f with body := f.body ++ ds } = f.comments ++ Element.commentsAll ds := by
  unfold comments
  rw [elements_append, Element.commentsAll_append]

end File

/-! ## Siblings -/

/-- The elements of a file in the order in which they are written: the version stands behind the
comments before it. -/
def File.siblings (f : File) : List Element :=
  match f.version with
  | none => f.body
  | some v =>
    let before (e : Element) := decide (e.extent.start.offset < v.notes.extent.start.offset)
    f.body.takeWhile before ++ .statement (.version v.item) v.notes :: f.body.dropWhile before

theorem File.siblings_perm (f : File) : f.siblings.Perm f.elements := by
  unfold siblings elements
  cases f.version with
  | none => exact .refl _
  | some v =>
    dsimp only
    refine List.perm_middle.trans ?_
    rw [List.takeWhile_append_dropWhile]
    exact .refl _

end ProtoIdl
