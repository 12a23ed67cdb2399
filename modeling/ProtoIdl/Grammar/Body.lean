import ProtoIdl.Grammar.Remark
import ProtoIdl.Grammar.Statement
/-!
# Bodies and files

A block is a head and a body between curly brackets. The keyword that an element starts with decides
what is read: `Scope.production?` is the table of what each kind of body may hold. A file is a body
of its own, without brackets, with the version in front.
-/
namespace ProtoIdl.Grammar

open Reading

/-- What can be read as one declaration. -/
inductive Production
  | version
  | importing
  | package
  | option
  | field
  | mapField
  | enumField
  | reserved
  | oneof
  | enum
  | extend
  | message
  | service
  | rpc
deriving DecidableEq

/-- The kinds of bodies. -/
inductive Scope
  | file
  | oneof
  | enum
  | extend
  | message
  | service
  | rpc
deriving DecidableEq

namespace Scope

/-- Keywords that start no element of a oneof (`_ONEOF_FORBIDDEN`). -/
def barredFromOneof : List Keyword :=
  [.kwRepeated, .kwOptional, .kwRequired, .kwMap, .kwMessage, .kwEnum, .kwOneof]

/-- What an element is read as, by the kind of its first token (the `dispatch` of `ProtoParser.parse`
and of each block). -/
def production? : Scope → Kind → Option Production
  | .file, .keyword .kwImport => some .importing
  | .file, .keyword .kwPackage => some .package
  | .file, .keyword .kwOption => some .option
  | .file, .keyword .kwMessage => some .message
  | .file, .keyword .kwEnum => some .enum
  | .file, .keyword .kwService => some .service
  | .file, .keyword .kwExtend => some .extend
  | .file, _ => none
  | .oneof, .keyword k =>
    if k = .kwOption then some .option
    else if k ∈ barredFromOneof then none
    else some .field
  | .oneof, _ => some .field
  | .enum, .keyword .kwOption => some .option
  | .enum, .keyword .kwReserved => some .reserved
  | .enum, _ => some .enumField
  | .extend, _ => some .field
  | .message, .keyword .kwEnum => some .enum
  | .message, .keyword .kwMessage => some .message
  | .message, .keyword .kwOption => some .option
  | .message, .keyword .kwOneof => some .oneof
  | .message, .keyword .kwMap => some .mapField
  | .message, .keyword .kwReserved => some .reserved
  | .message, .keyword .kwExtend => some .extend
  | .message, _ => some .field
  | .service, .keyword .kwOption => some .option
  | .service, .keyword .kwRpc => some .rpc
  | .service, _ => none
  | .rpc, .keyword .kwOption => some .option
  | .rpc, _ => none

/-- What is named as missing where an element cannot start (`_TOP_LEVEL_EXPECTED`, and the second
argument of `ProtoParser._parse_body`). -/
def expected : Scope → String
  | .file => "import, package, option, message, enum, service or extend"
  | .oneof => "option or oneofField"
  | .enum => "enumField"
  | .extend => "field"
  | .message => "messageBody"
  | .service => "option or rpc"
  | .rpc => "option"

end Scope

/-- A body that was read: its elements, the comment behind the opening curly and the place of the
closing one (the answer of `ProtoParser._parse_body`). -/
structure Body where
  elements : List Element
  behindCurly : Option Comment
  last : Position

/-- A block whose head was read: `body` reads the rest. -/
def block (body : Scope → Reading Body) (scope : Scope) (head : Head) (start : Position) :
    Reading Element := do
  let b ← body scope
  return .block head b.elements b.behindCurly { extent := ⟨start, b.last⟩ }

/-- `"(" [ "stream" ] messageType ")"` (`ProtoParser._parse_rpc_type`) -/
def rpcType : Reading RpcType := do
  expectDelimiter .leftParen "("
  let isStream := (← nextKeyword) = .keyword .kwStream
  let first ← position
  if ¬ isStream then putBack
  let (messageType, typeStart) ← messageType
  let extent := ⟨if isStream then first else typeStart, ← position⟩
  expectDelimiter .rightParen ")"
  return { messageType, isStream, extent }

/-- `"rpc" ident rpcType "returns" rpcType ( "{" body "}" | ";" )` (`ProtoParser.parse_rpc`) -/
def rpc (body : Scope → Reading Body) : Reading Element := do
  let start ← expectKeyword .kwRpc
  let name ← expectIdent "rpcName"
  let request ← rpcType
  let _ ← expectKeyword .kwReturns
  let response ← rpcType
  let head := Head.rpc { name, request, response }
  match ← next .plain with
  | .delimiter .semicolon => return .block head [] none { extent := ⟨start, ← position⟩ }
  | .delimiter .leftBrace =>
    putBack
    block body .rpc head start
  | _ => reject "\x7b or ;"

/-- A statement as an element. -/
def statement {α : Type} (wrap : α → Statement) (noted : Noted α) : Element :=
  .statement (wrap noted.item) noted.notes

/-- Reads one declaration; `body` reads the body of a block (`parse_import` to `parse_rpc` of
`ProtoParser`). -/
def declaration (opts : Options) (body : Scope → Reading Body) : Production → Reading Element
  | .version => return statement .version (← version)
  | .importing => return statement .importing (← importing)
  | .package => return statement .package (← package)
  | .option => return statement .option (← option opts)
  | .field => return statement .field (← field opts)
  | .mapField => return statement .mapField (← mapField opts)
  | .enumField => return statement .enumField (← enumField opts)
  | .reserved => return statement .reserved (← reserved)
  | .oneof => do
    let start ← expectKeyword .kwOneof
    block body .oneof (.oneof (← expectIdent "oneofName")) start
  | .enum => do
    let start ← expectKeyword .kwEnum
    block body .enum (.enum (← expectIdent "enumName")) start
  | .extend => do
    let start ← expectKeyword .kwExtend
    block body .extend (.extend (← messageType).1) start
  | .message => do
    let start ← expectKeyword .kwMessage
    block body .message (.message (← expectIdent "messageName")) start
  | .service => do
    let start ← expectKeyword .kwService
    block body .service (.service (← expectIdent "serviceName")) start
  | .rpc => rpc body

/-- Reads one declaration with the comments around it (`ProtoParser._parse_statement`). The comments
that cannot lead it come before it as elements where they are kept. -/
def element (opts : Options) (body : Scope → Reading Body) (keep : Bool)
    (comments : List Comment) (p : Production) : Reading (List Element) := do
  let e ← declaration opts body p
  let (notes, strays) ← attach comments (e.notes?.getD {})
  return (if keep then strays.map .comment else []) ++ [e.mapNotes fun _ => notes]

/-- `"}" | ";" | element`; `nested` reads the body of a block (one turn of the loop of
`ProtoParser._parse_body`). -/
def bodyRound (opts : Options) (nested : Scope → Reading Body) (scope : Scope)
    (behindCurly : Option Comment) (elements : List Element) :
    Reading (Round (List Element) Body) := do
  let comments ← commentsAhead
  match ← peek .keyword with
  | .delimiter .rightBrace =>
    let elements :=
      if opts.keepComments then elements ++ comments.map .comment else elements
    let _ ← next .plain
    return .done { elements, behindCurly, last := ← position }
  | .delimiter .semicolon =>
    let _ ← next .plain
    return .again elements
  | kind =>
    match scope.production? kind with
    | none =>
      let _ ← nextKeyword
      reject scope.expected
    | some p =>
      let read ← element opts nested opts.keepComments comments p
      return .again (elements ++ read)

/-- `"{" { element | ";" } "}"`; `nested` reads the body of a block (`ProtoParser._parse_body`). -/
def bodyWith (opts : Options) (nested : Scope → Reading Body) (scope : Scope) : Reading Body := do
  expectDelimiter .leftBrace "\x7b"
  let behindCurly ← commentBehind (← position)
  repeatFrom [] (bodyRound opts nested scope behindCurly)

/-- A body between curly brackets, nested at most `depth` times. -/
def bodyAtMost (opts : Options) : (depth : Nat) → Scope → Reading Body
  | 0, _ => throw .outOfRounds
  | depth + 1, scope => bodyWith opts (bodyAtMost opts depth) scope

/-- A body between curly brackets (`ProtoParser._parse_body`). -/
def body (opts : Options) (scope : Scope) : Reading Body := do
  bodyAtMost opts (← get).rounds scope

/-- Reads one declaration that starts with the next token. -/
def production (opts : Options) (p : Production) : Reading Element := declaration opts (body opts) p

/-- `";" | version | element`, or the end of the text: comments behind the last declaration stay as
elements (one turn of the loop of `ProtoParser.parse`). -/
def fileRound (opts : Options) (f : File) : Reading (Round File File) := do
  let comments ← commentsAhead
  match ← peek .keyword with
  | .eof => return .done { f with body := f.body ++ comments.map .comment }
  | .delimiter .semicolon =>
    let _ ← next .plain
    return .again f
  | .keyword .kwSyntax =>
    if f.version.isSome ∨ ¬ f.body.isEmpty then
      let _ ← nextKeyword
      reject Scope.file.expected
    else
      let v ← version
      let (notes, strays) ← attach comments v.notes
      return .again { version := some { v with notes }, body := strays.map .comment }
  | kind =>
    match Scope.file.production? kind with
    | none =>
      let _ ← nextKeyword
      reject Scope.file.expected
    | some p =>
      let read ← element opts (body opts) true comments p
      return .again { f with body := f.body ++ read }

/-- Reads to the end of the text (`ProtoParser.parse`). The version comes first. -/
def file (opts : Options) : Reading File := repeatFrom {} (fileRound opts)

end ProtoIdl.Grammar
