import ProtoIdl.Grammar.Reader
/-!
# Names

Names with dots between their parts, names of messages and enums, types of fields, and names of
options.
-/
namespace ProtoIdl.Grammar

open Reading

/-- `[ "." ident ]`, behind `name`. -/
def dottedRound (name : String) : Reading (Round String String) := do
  if ← accept .dot then
    let part ← expectIdent "ident"
    return .again (name ++ "." ++ part)
  else return .done name

/-- The parts of a name from a dot on: `{ "." ident }`. Each part is put behind `name`. -/
def dotted (name : String) : Reading String := repeatFrom name dottedRound

/-- `ident { "." ident }`, and the place of its first part (`ProtoLexer.read_full_ident`). -/
def fullIdent : Reading (String × Position) := do
  let first ← expectIdent "ident"
  let start ← position
  return (← dotted first, start)

/-- `[ "." ] ident { "." ident }`, and the place where it starts (`ProtoLexer.read_message_type`). -/
def messageType : Reading (String × Position) := do
  if ← accept .dot then
    let start ← position
    let (name, _) ← fullIdent
    return ("." ++ name, start)
  else fullIdent

/-- The types that are built in (`PROTO_PRIMITIVES`). -/
def scalarTypes : List String :=
  ["int32", "sint32", "sfixed32", "uint32", "fixed32", "int64", "sint64", "sfixed64", "uint64",
   "fixed64", "float", "double", "bool", "string", "bytes"]

/-- The types that may be keys of a map: the built-in ones but `float`, `double` and `bytes`
(`MAP_KEY_TYPES`). -/
def keyTypes : List String := scalarTypes.filter fun t => t ∉ ["float", "double", "bytes"]

/-- The type of a field: built in, or the name of a message or an enum (`ProtoParser._parse_type`). -/
def fieldType : Reading (String × Position) := do
  let kind ← next .plain
  let word ← text
  if kind = .ident ∧ word ∈ scalarTypes then return (word, ← position)
  else if kind = .ident ∨ kind = .delimiter .dot then
    putBack
    messageType
  else reject "type"

/-- `( ident | "(" fullIdent ")" ) { "." ident }` (`ProtoParser._parse_option_name`) -/
def optionName : Reading String := do
  match ← next .plain with
  | .ident => dotted (← text)
  | .delimiter .leftParen =>
    let (name, _) ← fullIdent
    expectDelimiter .rightParen ")"
    dotted ("(" ++ name ++ ")")
  | _ => reject "ident or ("

end ProtoIdl.Grammar
