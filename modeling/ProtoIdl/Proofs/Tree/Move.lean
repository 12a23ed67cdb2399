import ProtoIdl.Proofs.Text.Place
import ProtoIdl.Grammar.Body
/-!
# Moving the places of a tree

`Element.move f` changes every place in an element by `f` and nothing else, and so do the functions of
the same name on the parts of a tree, on tokens and on what reading returns. `Position.shift` moves a
place some octets and lines further; it commutes with reading characters (`Position.shift_after`) and
keeps places in order. Main statements: `Element.move_id` and `File.move_id`.
-/
namespace ProtoIdl

namespace Position

/-- The place `offset` octets and `line` lines further, in the same column. -/
def shift (offset line : Int) (p : Position) : Position :=
  { p with offset := p.offset + offset, line := p.line + line }

variable {offset line : Int} {p q : Position}

@[simp]
theorem shift_zero : shift 0 0 = id := by
  funext p
  simp [shift]

theorem shift_advance (c : Char) : (p.advance c).shift offset line = (p.shift offset line).advance c := by
  unfold advance
  by_cases h : c = '\n'
  · simp only [h, if_true, shift, mk.injEq, true_and, and_true]
    omega
  · simp only [h, if_false, shift, mk.injEq, true_and, and_true]
    omega

theorem shift_after (cs : List Char) : (p.after cs).shift offset line = (p.shift offset line).after cs := by
  induction cs generalizing p with
  | nil => rfl
  | cons c cs ih => rw [after_cons, after_cons, ih, shift_advance]

@[simp]
theorem shift_offset_lt : (p.shift offset line).offset < (q.shift offset line).offset ↔
    p.offset < q.offset := by
  simp [shift]

@[simp]
theorem shift_line_lt : (p.shift offset line).line < (q.shift offset line).line ↔ p.line < q.line := by
  simp [shift]

@[simp]
theorem shift_line_eq : (p.shift offset line).line = (q.shift offset line).line ↔ p.line = q.line := by
  simp [shift]

end Position

/-! ## Tokens -/

/-- A lexical error at another place. -/
def LexicalError.move (f : Position → Position) (e : LexicalError) : LexicalError :=
  { e with position := f e.position }

/-- A token at another place. -/
def Token.move (f : Position → Position) (t : Token) : Token :=
  { t with position := f t.position, last := t.last.map f, error := t.error.map (·.move f) }

namespace Token

variable {f : Position → Position}

@[simp]
theorem kind_move (t : Token) : (t.move f).kind = t.kind := rfl

@[simp]
theorem text_move (t : Token) : (t.move f).text = t.text := rfl

@[simp]
theorem position_move (t : Token) : (t.move f).position = f t.position := rfl

end Token

/-! ## Parts of a tree -/

/-- A range at another place. -/
def Extent.move (f : Position → Position) (x : Extent) : Extent := ⟨f x.start, f x.last⟩

/-- A comment at another place. -/
def Comment.move (f : Position → Position) (c : Comment) : Comment :=
  { c with extent := c.extent.move f }

/-- Notes at another place, with their comments. -/
def Notes.move (f : Position → Position) (n : Notes) : Notes :=
  { leading := n.leading.map (·.move f), inline := n.inline.map (·.move f), extent := n.extent.move f }

/-- A declaration whose item is changed by `g`, at another place. -/
def Noted.move {α : Type} (g : α → α) (f : Position → Position) (n : Noted α) : Noted α :=
  { item := g n.item, notes := n.notes.move f }

/-- An entry of an endpoint at another place. -/
def EndpointField.move (f : Position → Position) (e : EndpointField) : EndpointField :=
  { e with extent := e.extent.move f }

/-- A binding at another place. -/
def Binding.move (f : Position → Position) (b : Binding) : Binding :=
  { fields := b.fields.map (·.move f), extent := b.extent.move f }

/-- An endpoint at another place. -/
def Endpoint.move (f : Position → Position) (e : Endpoint) : Endpoint :=
  { fields := e.fields.map (·.move f), bindings := e.bindings.map (·.move f) }

theorem Endpoint.constant_move (f : Position → Position) (e : Endpoint) :
    (e.move f).constant = e.constant := by
  simp [constant, move, List.map_map, Function.comp_def, EndpointField.render, EndpointField.move]

/-- An option at another place. -/
def OptionSetting.move (f : Position → Position) (o : OptionSetting) : OptionSetting :=
  { o with endpoint := o.endpoint.map (·.move f) }

/-- The type of an rpc at another place. -/
def RpcType.move (f : Position → Position) (t : RpcType) : RpcType :=
  { t with extent := t.extent.move f }

/-- A statement at another place. -/
def Statement.move (f : Position → Position) : Statement → Statement
  | .option o => .option (o.move f)
  | s => s

/-- A head at another place. -/
def Head.move (f : Position → Position) : Head → Head
  | .rpc r => .rpc { r with request := r.request.move f, response := r.response.move f }
  | h => h

/-- A part of a statement at another place. -/
def Fragment.move (f : Position → Position) : Fragment → Fragment
  | .rpcType t => .rpcType (t.move f)
  | .endpoint e => .endpoint (e.move f)
  | .endpointField e => .endpointField (e.move f)
  | .binding b => .binding (b.move f)
  | g => g

mutual
/-- An element at another place, with all that is in it. -/
def Element.move (f : Position → Position) : Element → Element
  | .comment c => .comment (c.move f)
  | .statement s notes => .statement (s.move f) (notes.move f)
  | .block head body behindCurly notes =>
    .block (head.move f) (Element.moveAll f body) (behindCurly.map (·.move f)) (notes.move f)
  | .fragment g => .fragment (g.move f)
  | .file version body => .file (version.map (·.move id f)) (Element.moveAll f body)

/-- Elements at another place. -/
def Element.moveAll (f : Position → Position) : List Element → List Element
  | [] => []
  | e :: es => e.move f :: Element.moveAll f es
end

theorem Element.moveAll_eq (f : Position → Position) (es : List Element) :
    moveAll f es = es.map (·.move f) := by
  induction es with
  | nil => rfl
  | cons e es ih => rw [moveAll, List.map_cons, ih]

/-- A file at another place. -/
def File.move (f : Position → Position) (file : File) : File :=
  { version := file.version.map (·.move id f), body := file.body.map (·.move f) }

/-! ## Moving nowhere -/

@[simp]
theorem Token.move_id : Token.move id = id := by
  funext t
  have herror : t.error.map (·.move id) = t.error := by cases t.error <;> rfl
  rw [Token.move, Option.map_id, herror]
  rfl

@[simp]
theorem Comment.move_id : Comment.move id = id := rfl

@[simp]
theorem Notes.move_id : Notes.move id = id := by
  funext n
  simp [move, Extent.move]

@[simp]
theorem Noted.move_id {α : Type} : Noted.move (α := α) id id = id := by
  funext n
  simp [move]

@[simp]
theorem EndpointField.move_id : EndpointField.move id = id := rfl

@[simp]
theorem Binding.move_id : Binding.move id = id := by
  funext b
  simp [move, Extent.move]

@[simp]
theorem Endpoint.move_id : Endpoint.move id = id := by
  funext e
  simp [move]

@[simp]
theorem RpcType.move_id : RpcType.move id = id := rfl

@[simp]
theorem Statement.move_id (s : Statement) : s.move id = s := by
  cases s <;> simp [move, OptionSetting.move]

@[simp]
theorem Head.move_id (h : Head) : h.move id = h := by
  cases h <;> simp [move]

@[simp]
theorem Fragment.move_id (g : Fragment) : g.move id = g := by
  cases g <;> simp [move]

mutual
/-- An element that is moved nowhere stays as it is. -/
theorem Element.move_id : (e : Element) → e.move id = e
  | .comment c => by simp [Element.move]
  | .statement s notes => by simp [Element.move]
  | .block head body behindCurly notes => by simp [Element.move, Element.moveAll_id body]
  | .fragment g => by simp [Element.move]
  | .file version body => by simp [Element.move, Element.moveAll_id body]

theorem Element.moveAll_id : (es : List Element) → Element.moveAll id es = es
  | [] => rfl
  | e :: es => by rw [Element.moveAll, Element.move_id e, Element.moveAll_id es]
end

theorem File.move_id (f : File) : f.move id = f := by
  have h : (Element.move id) = id := funext Element.move_id
  simp [move, h]

end ProtoIdl
