import ProtoIdl.Grammar.Name
import ProtoIdl.Tree.Declaration
import ProtoIdl.Tree.Literal
/-!
# Constants

The values of options. Besides the constants of the grammar, a permissive reader takes two kinds of
values between curly brackets: the description of an endpoint, and the literal of a validator.
-/
namespace ProtoIdl.Grammar

open Reading

/-- `fullIdent | [ sign ] intLit | [ sign ] floatLit | strLit | boolLit`, and its place
(`ProtoLexer.read_constant`). Where curly brackets are allowed, `none` says that one comes next. -/
def constant? (curly : Bool) : Reading (Option String × Position) := do
  let kind ← next .literal
  let start ← position
  if kind.isLiteral then return (some (← text), start)
  else match kind with
  | .ident =>
    putBack
    let (name, start) ← fullIdent
    return (some name, start)
  | .delimiter .minus | .delimiter .plus =>
    let sign ← text
    match ← next .literal with
    | .intLit | .floatLit => return (some (sign ++ (← text)), start)
    | _ => reject "intLit or floatLit"
  | .delimiter .leftBrace =>
    if curly then
      putBack
      return (none, start)
    else reject "constant"
  | _ => reject "constant"

/-! ## Endpoints -/

/-- `fullIdent ":" constant | fullIdent [ ":" ] endpoint` (`ProtoParser._parse_endpoint_field`). A
nested endpoint is kept as text. -/
def endpointField (nested : Reading Endpoint) : Reading EndpointField := do
  let (name, start) ← fullIdent
  let constant ←
    match ← next .plain with
    | .delimiter .leftBrace =>
      putBack
      pure (← nested).constant
    | .delimiter .colon =>
      match ← constant? true with
      | (some constant, _) => pure constant
      | (none, _) => pure (← nested).constant
    | _ => reject ":"
  return { name, constant, extent := ⟨start, ← position⟩ }

/-- `[ ":" ] endpoint`, behind the word `additional_bindings`
(`ProtoParser._parse_additional_binding`). -/
def binding (nested : Reading Endpoint) : Reading Binding := do
  let start ← position
  let _ ← accept .colon
  let endpoint ← nested
  return { fields := endpoint.fields, extent := ⟨start, ← position⟩ }

/-- `"}" | ( endpointField | "additional_bindings" binding ) [ "," ]` (one turn of the loop of
`ProtoParser._parse_cloud_endpoint`) -/
def endpointRound (nested : Reading Endpoint) (e : Endpoint) :
    Reading (Round Endpoint Endpoint) := do
  match ← nextKeyword with
  | .delimiter .rightBrace => return .done e
  | .keyword .kwAdditionalBindings =>
    let b ← binding nested
    let _ ← accept .comma
    return .again { e with bindings := e.bindings ++ [b] }
  | _ =>
    putBack
    let f ← endpointField nested
    let _ ← accept .comma
    return .again { e with fields := e.fields ++ [f] }

/-- `"{" { ( endpointField | "additional_bindings" binding ) [ "," ] } "}"`
(`ProtoParser._parse_cloud_endpoint`) -/
def endpointWith (nested : Reading Endpoint) : Reading Endpoint := do
  expectDelimiter .leftBrace "\x7b"
  repeatFrom {} (endpointRound nested)

/-- An endpoint, nested at most `depth` times. -/
def endpointAtMost : (depth : Nat) → Reading Endpoint
  | 0 => throw .outOfRounds
  | depth + 1 => endpointWith (endpointAtMost depth)

/-- The description of an endpoint (`ProtoParser._parse_cloud_endpoint`). -/
def endpoint : Reading Endpoint := do endpointAtMost (← get).rounds

/-! ## Validator literals -/

/-- `"]" | strLit [ "," ]` -/
def stringListRound (items : List String) : Reading (Round (List String) (List String)) := do
  if (← peek .plain) = .delimiter .rightBracket then
    let _ ← next .plain
    return .done items
  else
    let item ← expect .string .stringLit "strLit"
    if (← peek .plain) = .delimiter .comma then
      let _ ← next .plain
    return .again (items ++ [item])

/-- `"[" { strLit [ "," ] } "]"` (`ProtoParser._parse_constant_list`) -/
def stringList : Reading (List String) := do
  expectDelimiter .leftBracket "["
  repeatFrom [] stringListRound

/-- `constant | literal | stringList` (`ProtoParser._parse_validator_value`) -/
def literalValue (nested : Reading Entries) : Reading Literal := do
  if (← peek .plain) = .delimiter .leftBracket then return .list (← stringList)
  else match ← constant? true with
    | (some text, _) => return .constant text
    | (none, _) => return .group (← nested)

/-- `ident ":" value [ "," ] [ "}" ]` (one turn of the loop of
`ProtoParser._parse_validator_constant`) -/
def entriesRound (nested : Reading Entries) (entries : Entries) :
    Reading (Round Entries Entries) := do
  let name ← expectIdent "ident"
  expectDelimiter .colon ":"
  let value ← literalValue nested
  match ← next .plain with
  | .delimiter .comma =>
    let entries := entries.push name value true
    if (← peek .plain) = .delimiter .rightBrace then
      let _ ← next .plain
      return .done entries
    else return .again entries
  | .delimiter .rightBrace => return .done (entries.push name value false)
  | _ =>
    putBack
    return .again (entries.push name value false)

/-- `"{" ident ":" value { [ "," ] ident ":" value } [ "," ] "}"`
(`ProtoParser._parse_validator_constant`) -/
def entriesWith (nested : Reading Entries) : Reading Entries := do
  expectDelimiter .leftBrace "\x7b"
  repeatFrom .nil (entriesRound nested)

/-- A group of entries, nested at most `depth` times. -/
def entriesAtMost : (depth : Nat) → Reading Entries
  | 0 => throw .outOfRounds
  | depth + 1 => entriesWith (entriesAtMost depth)

/-- A literal between curly brackets (`ProtoParser._parse_validator_constant`). -/
def literal : Reading Literal := do return .group (← entriesAtMost (← get).rounds)

end ProtoIdl.Grammar
