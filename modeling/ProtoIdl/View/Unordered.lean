import ProtoIdl.Tree.Declaration
/-!
# The unordered view

A body is split into one list for each kind of declaration. Every list keeps the order of the body;
the order between the lists is lost. A body with an element of a kind it cannot hold has no such
view: `Misplaced` names it.
-/
namespace ProtoIdl.View

/-- The bodies that the view takes apart. -/
inductive Level
  | file
  | message
  | enum
  | service
deriving DecidableEq

namespace Level

/-- The name of a level in messages (the `kind` that `_sort_into` is given). -/
def word : Level → String
  | .file => "proto"
  | .message => "message"
  | .enum => "enum"
  | .service => "service"

/-- Whether a body may hold an element (`_PROTO_BUCKETS`, `_MESSAGE_BUCKETS`, `_ENUM_BUCKETS` and
`_SERVICE_BUCKETS`). -/
def holds : Level → Element → Bool
  | _, .comment _ => true
  | _, .statement (.option _) _ => true
  | .file, .statement s _ => match s with
    | .importing _ | .package _ => true
    | _ => false
  | .file, .block head _ _ _ => match head with
    | .message _ | .enum _ | .service _ | .extend _ => true
    | _ => false
  | .message, .statement s _ => match s with
    | .field _ | .mapField _ | .reserved _ => true
    | _ => false
  | .message, .block head _ _ _ => match head with
    | .message _ | .enum _ | .oneof _ | .extend _ => true
    | _ => false
  | .enum, .statement s _ => match s with
    | .enumField _ | .reserved _ => true
    | _ => false
  | .service, .block (.rpc _) _ _ _ => true
  | _, _ => false

end Level

/-- An element in a body that cannot hold it (`InterpretError`). -/
structure Misplaced where
  level : Level
  className : String
deriving DecidableEq

/-- A misplaced element as it is reported. -/
def Misplaced.message (m : Misplaced) : String :=
  "invalid " ++ m.level.word ++ " body element " ++ m.className

/-- Reports the first element that a body cannot hold (`_sort_into`). -/
def check (level : Level) (body : List Element) : Except Misplaced Unit :=
  match body.find? fun e => !level.holds e with
  | some e => .error ⟨level, e.className⟩
  | none => .ok ()

/-! ## The lists of a body -/

/-- The comments of a body. -/
def comments (body : List Element) : List Comment :=
  body.filterMap fun | .comment c => some c | _ => none

/-- The options of a body. -/
def options (body : List Element) : List (Noted OptionSetting) :=
  body.filterMap fun | .statement (.option o) notes => some ⟨o, notes⟩ | _ => none

/-- The imports of a body. -/
def imports (body : List Element) : List (Noted Import) :=
  body.filterMap fun | .statement (.importing i) notes => some ⟨i, notes⟩ | _ => none

/-- The packages of a body. -/
def packages (body : List Element) : List (Noted Package) :=
  body.filterMap fun | .statement (.package p) notes => some ⟨p, notes⟩ | _ => none

/-- The fields of a body. -/
def fields (body : List Element) : List (Noted Field) :=
  body.filterMap fun | .statement (.field f) notes => some ⟨f, notes⟩ | _ => none

/-- The map fields of a body. -/
def mapFields (body : List Element) : List (Noted MapField) :=
  body.filterMap fun | .statement (.mapField f) notes => some ⟨f, notes⟩ | _ => none

/-- The enum values of a body. -/
def enumFields (body : List Element) : List (Noted EnumField) :=
  body.filterMap fun | .statement (.enumField f) notes => some ⟨f, notes⟩ | _ => none

/-- The reserved statements of a body. -/
def reserves (body : List Element) : List (Noted Reserved) :=
  body.filterMap fun | .statement (.reserved r) notes => some ⟨r, notes⟩ | _ => none

/-- The oneofs of a body, by their names. -/
def oneofs (body : List Element) : List (Block String) :=
  body.filterMap fun
    | .block (.oneof name) body curly notes => some ⟨name, body, curly, notes⟩
    | _ => none

/-- The extensions of a body, by the types they extend. -/
def extensions (body : List Element) : List (Block String) :=
  body.filterMap fun
    | .block (.extend type) body curly notes => some ⟨type, body, curly, notes⟩
    | _ => none

/-- The rpcs of a body. -/
def rpcs (body : List Element) : List (Block Rpc) :=
  body.filterMap fun
    | .block (.rpc r) body curly notes => some ⟨r, body, curly, notes⟩
    | _ => none

/-! ## Enums, services, messages and files -/

/-- An enum, unordered (`Enum` with its `EnumBody`). -/
structure EnumView where
  name : String
  options : List (Noted OptionSetting)
  fields : List (Noted EnumField)
  reserves : List (Noted Reserved)
  comments : List Comment
  behindCurly : Option Comment
  notes : Notes

/-- A service, unordered (`Service` with its `ServiceBody`). -/
structure ServiceView where
  name : String
  options : List (Noted OptionSetting)
  rpcs : List (Block Rpc)
  comments : List Comment
  behindCurly : Option Comment
  notes : Notes

/-- A message, unordered (`Message` with its `MessageBody`). -/
structure MessageView where
  name : String
  fields : List (Noted Field)
  enums : List EnumView
  messages : List MessageView
  options : List (Noted OptionSetting)
  oneofs : List (Block String)
  maps : List (Noted MapField)
  reserves : List (Noted Reserved)
  extensions : List (Block String)
  comments : List Comment
  behindCurly : Option Comment
  notes : Notes

/-- A file, unordered (`Proto` with its `ProtoBody`). -/
structure FileView where
  version : Option (Noted Version)
  imports : List (Noted Import)
  packages : List (Noted Package)
  options : List (Noted OptionSetting)
  messages : List MessageView
  enums : List EnumView
  services : List ServiceView
  extensions : List (Block String)
  comments : List Comment

/-- The view of an enum (`interpret_enum`). -/
def ofEnum (name : String) (body : List Element) (behindCurly : Option Comment) (notes : Notes) :
    Except Misplaced EnumView := do
  check .enum body
  return { name, options := options body, fields := enumFields body, reserves := reserves body,
           comments := comments body, behindCurly, notes }

/-- The view of a service (`interpret_service`). -/
def ofService (name : String) (body : List Element) (behindCurly : Option Comment)
    (notes : Notes) : Except Misplaced ServiceView := do
  check .service body
  return { name, options := options body, rpcs := rpcs body, comments := comments body,
           behindCurly, notes }

/-- The declarations of a body that have views of their own. -/
structure Nested where
  messages : List MessageView := []
  enums : List EnumView := []
  services : List ServiceView := []

/-- The view of a message whose nested declarations were viewed before. -/
def assemble (nested : Nested) (name : String) (body : List Element)
    (behindCurly : Option Comment) (notes : Notes) : Except Misplaced MessageView := do
  check .message body
  return { name, fields := fields body, enums := nested.enums, messages := nested.messages,
           options := options body, oneofs := oneofs body, maps := mapFields body,
           reserves := reserves body, extensions := extensions body, comments := comments body,
           behindCurly, notes }

/-- What two parts of a body hold together. -/
def Nested.append (a b : Nested) : Nested where
  messages := a.messages ++ b.messages
  enums := a.enums ++ b.enums
  services := a.services ++ b.services

mutual
/-- Views an element that has a view of its own. Services are looked into in a file only. -/
def nestedOf (level : Level) : Element → Except Misplaced Nested
  | .block (.message name) body curly notes => do
    let m ← assemble (← nestedIn .message body) name body curly notes
    return { messages := [m] }
  | .block (.enum name) body curly notes => do
    let e ← ofEnum name body curly notes
    return { enums := [e] }
  | .block (.service name) body curly notes =>
    if level = .file then do
      let s ← ofService name body curly notes
      return { services := [s] }
    else return {}
  | _ => return {}

/-- Views the nested declarations of a body in order (the loop of `interpret_message` and of
`interpret_proto`). -/
def nestedIn (level : Level) : List Element → Except Misplaced Nested
  | [] => return {}
  | e :: rest => return (← nestedOf level e).append (← nestedIn level rest)
end

/-- The view of a message (`interpret_message`). Nested declarations are looked at before the others. -/
def ofMessage (name : String) (body : List Element) (behindCurly : Option Comment)
    (notes : Notes) : Except Misplaced MessageView := do
  assemble (← nestedIn .message body) name body behindCurly notes

/-- The view of a file (`interpret_proto`). Nested declarations are looked at before the others. -/
def ofFile (f : File) : Except Misplaced FileView := do
  let inner ← nestedIn .file f.body
  check .file f.body
  return { version := f.version, imports := imports f.body, packages := packages f.body,
           options := options f.body, messages := inner.messages, enums := inner.enums,
           services := inner.services, extensions := extensions f.body,
           comments := comments f.body }

end ProtoIdl.View
