import ProtoIdl.Json.Basic
import ProtoIdl.Tree.Declaration
/-!
# The JSON form of a tree

Every declaration is an object with its own members first and its notes behind them, as `to_json` has
them from the fields of its class. Nothing in the object tells the kind of the declaration.
-/
namespace ProtoIdl

instance : ToJson Position := ⟨fun p => .object
  [("filename", json p.file), ("offset", json p.offset), ("line", json p.line),
   ("column", json p.column)]⟩

instance : ToJson Extent := ⟨fun e => .object [("start", json e.start), ("last", json e.last)]⟩

instance : ToJson Comment := ⟨fun c => .object [("raw", json c.raw), ("meta", json c.extent)]⟩

instance : ToJson Setting := ⟨fun s => .object
  [("option_name", json s.name), ("constant", json s.constant)]⟩

instance : ToJson EndpointField := ⟨fun f => .object
  [("option_name", json f.name), ("constant", json f.constant), ("meta", json f.extent)]⟩

instance : ToJson Binding := ⟨fun b => .object
  [("fields", json b.fields), ("meta", json b.extent)]⟩

instance : ToJson Endpoint := ⟨fun e => .object
  [("fields", json e.fields), ("additional_bindings", json e.bindings)]⟩

instance : ToJson NumberRange := ⟨fun r => .object
  [("begin", json r.first), ("end", json r.last)]⟩

instance : ToJson RpcType := ⟨fun t => .object
  [("message_type", json t.messageType), ("is_stream", json t.isStream), ("meta", json t.extent)]⟩

namespace Json

/-- The members that every declaration has. -/
def leading (notes : Notes) : List (String × Json) :=
  [("comments", json notes.leading), ("inline_comment", json notes.inline)]

/-- The place of a declaration. -/
def place (notes : Notes) : List (String × Json) := [("meta", json notes.extent)]

/-- The members of a declaration without a body. -/
def noted (members : List (String × Json)) (notes : Notes) : Json :=
  .object (members ++ leading notes ++ place notes)

/-- The members of a block. -/
def blocked (members : List (String × Json)) (behindCurly : Option Comment) (notes : Notes) : Json :=
  .object (members ++ leading notes
    ++ [("inline_comment_behind_left_curly", json behindCurly)] ++ place notes)

/-- The members of a version. -/
def version (v : Version) : List (String × Json) := [("protobuf_version", json v.text)]

/-- The members of an import. -/
def importing (i : Import) : List (String × Json) :=
  [("location", json i.location), ("modifier", json i.visibility.word)]

/-- The members of a package. -/
def package (p : Package) : List (String × Json) := [("name", json p.name)]

/-- The members of an option. -/
def option (o : OptionSetting) : List (String × Json) :=
  [("option_name", json o.name), ("constant", json o.constant), ("endpoint", json o.endpoint)]

/-- The members of a field. -/
def field (f : Field) : List (String × Json) :=
  [("type_name", json f.type), ("field_name", json f.name), ("field_number", json f.number),
   ("is_repeated", json f.isRepeated), ("field_options", json f.settings)]

/-- The members of a map field. -/
def mapField (f : MapField) : List (String × Json) :=
  [("key_type", json f.keyType), ("type_name", json f.type), ("field_name", json f.name),
   ("field_number", json f.number), ("field_options", json f.settings)]

/-- The members of an enum value. -/
def enumField (f : EnumField) : List (String × Json) :=
  [("ident", json f.name), ("number", json f.number), ("enum_value_options", json f.settings)]

/-- The members of a reserved statement. -/
def reserved (r : Reserved) : List (String × Json) :=
  [("ranges", json r.ranges), ("field_names", json r.names)]

/-- The members of a statement. -/
def statement : Statement → List (String × Json)
  | .version v => version v
  | .importing i => importing i
  | .package p => package p
  | .option o => option o
  | .field f => field f
  | .mapField f => mapField f
  | .enumField f => enumField f
  | .reserved r => reserved r

/-- The members of a head. -/
def head : Head → List (String × Json)
  | .oneof name | .enum name | .message name | .service name => [("name", json name)]
  | .extend type => [("message_type", json type)]
  | .rpc r =>
    [("name", json r.name), ("request", json r.request), ("response", json r.response)]

/-- The JSON form of a fragment. -/
def fragment : Fragment → Json
  | .rpcType t => json t
  | .range r => json r
  | .fieldSetting s => json s
  | .enumSetting s => json s
  | .endpoint e => json e
  | .endpointField f => json f
  | .binding b => json b

instance : ToJson (Noted Version) := ⟨fun v => noted (version v.item) v.notes⟩

mutual
/-- The JSON form of an element. -/
def element : Element → Json
  | .comment c => json c
  | .statement s notes => noted (statement s) notes
  | .block h body curly notes => blocked (head h ++ [("body", .array (elements body))]) curly notes
  | .fragment f => fragment f
  | .file v body => .object [("syntax", json v), ("body", .array (elements body))]

/-- The JSON forms of elements. -/
def elements : List Element → List Json
  | [] => []
  | e :: rest => element e :: elements rest
end

end Json

instance : ToJson Element := ⟨Json.element⟩

instance : ToJson File := ⟨fun f => Json.element (.file f.version f.body)⟩

end ProtoIdl
