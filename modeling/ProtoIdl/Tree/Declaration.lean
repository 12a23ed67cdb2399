import ProtoIdl.Text.Position
/-!
# Declarations

A file is an optional version and a list of elements. An element is a comment, a statement, or a
block with elements of its own; statements and blocks carry `Notes`: the comments around them and
their place. The parts of statements are no elements, and neither is a file; yet a tree built by hand
may hold a part of a statement, a `Fragment`, or a whole file where an element is due. Reading never
produces either.
-/
namespace ProtoIdl

/-- A comment with its delimiters (`ProtoComment`). -/
structure Comment where
  raw : String
  extent : Extent := {}
deriving DecidableEq, Repr, Inhabited

/-- What surrounds a statement or a block: the comments before it, one behind it on its last line,
and its place. -/
structure Notes where
  leading : List Comment := []
  inline : Option Comment := none
  extent : Extent := {}
deriving DecidableEq, Repr, Inhabited

/-- A declaration together with its notes. -/
structure Noted (α : Type) where
  item : α
  notes : Notes := {}
deriving DecidableEq, Repr

/-! ## Parts of statements -/

/-- A `name = constant` setting between brackets behind a field or an enum value (`FieldOption` and
`EnumValueOption`). -/
structure Setting where
  name : String
  constant : String
deriving DecidableEq, Repr

/-- One `name: constant` entry of an endpoint (`EndpointFieldOption`). -/
structure EndpointField where
  name : String
  constant : String
  extent : Extent := {}
deriving DecidableEq, Repr

/-- One `additional_bindings { ... }` group of an endpoint (`AdditionalBinding`). -/
structure Binding where
  fields : List EndpointField := []
  extent : Extent := {}
deriving DecidableEq, Repr

/-- The structured value of an option that describes an endpoint (`CloudEndpoint`). -/
structure Endpoint where
  fields : List EndpointField := []
  bindings : List Binding := []
deriving DecidableEq, Repr

/-- Reserved numbers; `last` is empty for a single number (`Range`). -/
structure NumberRange where
  first : String
  last : String := ""
deriving DecidableEq, Repr

/-- What an rpc takes or gives back (`RPCType`). -/
structure RpcType where
  messageType : String
  isStream : Bool := false
  extent : Extent := {}
deriving DecidableEq, Repr

/-! ## Statements -/

/-- The version of the language a file is written in (`ProtoSyntax`). -/
structure Version where
  text : String := "proto3"
deriving DecidableEq, Repr

/-- How the names of an imported file are passed on (`ImportModifier`). -/
inductive Visibility
  | plain
  | toImporters
  | weak
deriving DecidableEq, Repr

/-- An import; the location keeps its quotes (`ProtoImport`). -/
structure Import where
  location : String
  visibility : Visibility := .plain
deriving DecidableEq, Repr

/-- The package of a file (`ProtoPackage`). -/
structure Package where
  name : String
deriving DecidableEq, Repr

/-- An option statement (`ProtoOption`). The constant is empty where an endpoint was read. -/
structure OptionSetting where
  name : String
  constant : String := ""
  endpoint : Option Endpoint := none
deriving DecidableEq, Repr

/-- A field of a message, a oneof or an extension (`ProtoField`). -/
structure Field where
  type : String
  name : String
  number : String
  isRepeated : Bool := false
  settings : List Setting := []
deriving DecidableEq, Repr

/-- A field that maps keys to values (`ProtoMapField`). -/
structure MapField where
  keyType : String
  type : String
  name : String
  number : String
  settings : List Setting := []
deriving DecidableEq, Repr

/-- A value of an enum (`ProtoEnumField`). -/
structure EnumField where
  name : String
  number : String
  settings : List Setting := []
deriving DecidableEq, Repr

/-- Numbers or names that fields must not use; a file has one of the two lists (`ProtoReserved`). -/
structure Reserved where
  ranges : List NumberRange := []
  names : List String := []
deriving DecidableEq, Repr

/-- A declaration without a body. -/
inductive Statement
  | version (v : Version)
  | importing (i : Import)
  | package (p : Package)
  | option (o : OptionSetting)
  | field (f : Field)
  | mapField (f : MapField)
  | enumField (f : EnumField)
  | reserved (r : Reserved)
deriving DecidableEq, Repr

/-! ## Blocks and files -/

/-- The head of an rpc (`ProtoRPC`). -/
structure Rpc where
  name : String
  request : RpcType
  response : RpcType
deriving DecidableEq, Repr

/-- What stands in front of a body (`ProtoOneof`, `ProtoEnum`, `ProtoExtend`, `ProtoMessage`,
`ProtoService` and `ProtoRPC`). -/
inductive Head
  | oneof (name : String)
  | enum (name : String)
  | extend (messageType : String)
  | message (name : String)
  | service (name : String)
  | rpc (r : Rpc)
deriving DecidableEq, Repr

/-- A part of a statement in the place of an element. -/
inductive Fragment
  | rpcType (t : RpcType)
  | range (r : NumberRange)
  | fieldSetting (s : Setting)
  | enumSetting (s : Setting)
  | endpoint (e : Endpoint)
  | endpointField (f : EndpointField)
  | binding (b : Binding)
deriving DecidableEq, Repr

/-- An element of a file or of a body. `behindCurly` is the comment behind the opening curly on its
line. -/
inductive Element
  | comment (c : Comment)
  | statement (s : Statement) (notes : Notes)
  | block (head : Head) (body : List Element) (behindCurly : Option Comment) (notes : Notes)
  | fragment (f : Fragment)
  | file (version : Option (Noted Version)) (body : List Element)
deriving Repr

/-- A file (`ProtoFile`). -/
structure File where
  version : Option (Noted Version) := none
  body : List Element := []
deriving Repr

/-- A block of one kind, with its body in order. -/
structure Block (α : Type) where
  head : α
  body : List Element := []
  behindCurly : Option Comment := none
  notes : Notes := {}
deriving Repr

namespace Comment

/-- A comment between `/*` and `*/` (`ProtoComment.is_c_style`). -/
def isBlock (c : Comment) : Bool := "/*".toList.isPrefixOf c.raw.toList

/-- Splits a text at its newlines. There is always a first line. -/
def splitLines : List Char → List (List Char)
  | [] => [[]]
  | c :: rest =>
    if c = '\n' then [] :: splitLines rest
    else match splitLines rest with
      | [] => [[c]]
      | line :: lines => (c :: line) :: lines

/-- The lines of a comment without its delimiters: two characters in front, and in a block comment two
behind (`ProtoComment.lines`). -/
def lines (c : Comment) : List String :=
  let chars := c.raw.toList
  if c.isBlock then
    (splitLines ((chars.take (chars.length - 2)).drop 2)).map String.ofList
  else [String.ofList (chars.drop 2)]

end Comment

namespace EndpointField

/-- An entry as it is written, without white space. -/
def render (f : EndpointField) : String := f.name ++ ":" ++ f.constant

end EndpointField

namespace Endpoint

/-- The fields between curly brackets, separated by commas (`CloudEndpoint.to_constant`). Bindings are
left out. -/
def constant (e : Endpoint) : String :=
  "\x7b" ++ String.intercalate "," (e.fields.map (·.render)) ++ "\x7d"

end Endpoint

namespace NumberRange

/-- A range as it is written (`Range.__str__`). -/
def render (r : NumberRange) : String :=
  if r.last = "" then r.first else r.first ++ " to " ++ r.last

end NumberRange

namespace Visibility

/-- The word between `import` and the location, empty if there is none. -/
def word : Visibility → String
  | .plain => ""
  | .toImporters => "public"
  | .weak => "weak"

end Visibility

namespace Fragment

/-- The class of a fragment, as it is called in messages. -/
def className : Fragment → String
  | .rpcType _ => "RPCType"
  | .range _ => "Range"
  | .fieldSetting _ => "FieldOption"
  | .enumSetting _ => "EnumValueOption"
  | .endpoint _ => "CloudEndpoint"
  | .endpointField _ => "EndpointFieldOption"
  | .binding _ => "AdditionalBinding"

end Fragment

namespace Statement

/-- The class of a statement, as it is called in messages. -/
def className : Statement → String
  | .version _ => "ProtoSyntax"
  | .importing _ => "ProtoImport"
  | .package _ => "ProtoPackage"
  | .option _ => "ProtoOption"
  | .field _ => "ProtoField"
  | .mapField _ => "ProtoMapField"
  | .enumField _ => "ProtoEnumField"
  | .reserved _ => "ProtoReserved"

end Statement

namespace Head

/-- The class of a block, as it is called in messages. -/
def className : Head → String
  | .oneof _ => "ProtoOneof"
  | .enum _ => "ProtoEnum"
  | .extend _ => "ProtoExtend"
  | .message _ => "ProtoMessage"
  | .service _ => "ProtoService"
  | .rpc _ => "ProtoRPC"

end Head

namespace Element

/-- The class of an element, as it is called in messages. -/
def className : Element → String
  | .comment _ => "ProtoComment"
  | .statement s _ => s.className
  | .block head _ _ _ => head.className
  | .fragment f => f.className
  | .file _ _ => "ProtoFile"

/-- The notes of a statement or a block. -/
def notes? : Element → Option Notes
  | .statement _ notes | .block _ _ _ notes => some notes
  | .comment _ | .fragment _ | .file _ _ => none

/-- Changes the notes of a statement or a block. -/
def mapNotes (f : Notes → Notes) : Element → Element
  | .statement s notes => .statement s (f notes)
  | .block head body curly notes => .block head body curly (f notes)
  | e => e

end Element

namespace File

/-- The elements of a file, the version first. -/
def elements (f : File) : List Element :=
  (f.version.map fun v => .statement (.version v.item) v.notes).toList ++ f.body

end File

end ProtoIdl
