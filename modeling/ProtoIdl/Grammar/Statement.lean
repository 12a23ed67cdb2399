import ProtoIdl.Grammar.Constant
/-!
# Statements

One reader for every declaration without a body. A statement carries its extent and no comments:
these are attached where it stands in a body.
-/
namespace ProtoIdl.Grammar

open Reading

/-- What a reader lets pass (the options of a `ProtoParser`). -/
structure Options where
  /-- Values between curly brackets are read. -/
  permissive : Bool := false
  /-- Comments that belong to no declaration stay in the body as elements. -/
  keepComments : Bool := false
deriving DecidableEq

/-- The semicolon that ends a statement; the answer is the extent from `start` to it. -/
def finish (start : Position) : Reading Notes := do
  expectDelimiter .semicolon ";"
  return { extent := ⟨start, ← position⟩ }

/-- `"syntax" "=" quote "proto3" quote ";"`, with twice the same quote (`ProtoParser.parse_syntax`). -/
def version : Reading (Noted Version) := do
  let start ← expectKeyword .kwSyntax
  expectDelimiter .equals "="
  let quote ← expect .plain (.delimiter .quote) "quote"
  let _ ← next .plain
  if (← text) ≠ "proto3" then reject "proto3"
  let kind ← next .plain
  if kind ≠ .delimiter .quote ∨ (← text) ≠ quote then reject quote
  return { item := { text := "proto3" }, notes := ← finish start }

/-- `"import" [ "weak" | "public" ] strLit ";"` (`ProtoParser.parse_import`) -/
def importing : Reading (Noted Import) := do
  let start ← expectKeyword .kwImport
  let kind ← next (.union .keyword .string)
  let visibility : Visibility :=
    match kind with
    | .keyword .kwPublic => .toImporters
    | .keyword .kwWeak => .weak
    | _ => .plain
  let kind ← if visibility = .plain then pure kind else next .string
  if kind ≠ .stringLit then reject "weak, public or strLit"
  let location ← text
  return { item := { location, visibility }, notes := ← finish start }

/-- `"package" fullIdent ";"` (`ProtoParser.parse_package`) -/
def package : Reading (Noted Package) := do
  let start ← expectKeyword .kwPackage
  let (name, _) ← fullIdent
  return { item := { name }, notes := ← finish start }

/-- `"option" optionName "=" constant ";"`, or an endpoint in the place of the constant
(`ProtoParser.parse_option`). -/
def option (opts : Options) : Reading (Noted OptionSetting) := do
  let start ← expectKeyword .kwOption
  let name ← optionName
  expectDelimiter .equals "="
  let item ←
    match ← constant? opts.permissive with
    | (some constant, _) => pure { name, constant : OptionSetting }
    | (none, _) => pure { name, endpoint := some (← endpoint) : OptionSetting }
  return { item, notes := ← finish start }

/-- `optionName "=" constant`, or a literal in the place of the constant
(`ProtoParser._parse_field_option`). -/
def setting (opts : Options) : Reading Setting := do
  let name ← optionName
  expectDelimiter .equals "="
  match ← constant? opts.permissive with
  | (some constant, _) => return { name, constant }
  | (none, _) => return { name, constant := (← literal).render }

/-- `"]" | "," setting` -/
def settingsRound (opts : Options) (settings : List Setting) :
    Reading (Round (List Setting) (List Setting)) := do
  match ← next .plain with
  | .delimiter .rightBracket => return .done settings
  | .delimiter .comma => return .again (settings ++ [← setting opts])
  | _ => reject ", or ]"

/-- `[ "[" setting { "," setting } "]" ]` (`ProtoParser._parse_field_options`) -/
def settings (opts : Options) : Reading (List Setting) := do
  if ← accept .leftBracket then
    let first ← setting opts
    repeatFrom [first] (settingsRound opts)
  else return []

/-- The sign in front of a number. -/
def sign? (number : String) : Option Char :=
  number.toList.head?.filter fun c => c == '+' || c == '-'

/-- An integer without a sign (`ProtoParser._parse_field_number`). -/
def fieldNumber : Reading String := do
  let kind ← next .number
  let number ← text
  if kind = .intLit ∧ sign? number = none then return number else reject "fieldNumber"

/-- `[ "repeated" ] type ident "=" fieldNumber [ settings ] ";"` (`ProtoParser.parse_field`) -/
def field (opts : Options) : Reading (Noted Field) := do
  let isRepeated := (← nextKeyword) = .keyword .kwRepeated
  let first ← position
  if ¬ isRepeated then putBack
  let (type, typeStart) ← fieldType
  let name ← expectIdent "fieldName"
  expectDelimiter .equals "="
  let number ← fieldNumber
  let settings ← settings opts
  let notes ← finish (if isRepeated then first else typeStart)
  return { item := { type, name, number, isRepeated, settings }, notes }

/-- The type of the keys of a map. -/
def keyType : Reading String := do
  let kind ← next .plain
  let word ← text
  if kind = .ident ∧ word ∈ keyTypes then return word else reject "keyType"

/-- `"map" "<" keyType "," type ">" ident "=" fieldNumber [ settings ] ";"`
(`ProtoParser.parse_map_field`) -/
def mapField (opts : Options) : Reading (Noted MapField) := do
  let start ← expectKeyword .kwMap
  expectDelimiter .leftAngle "<"
  let keyType ← keyType
  expectDelimiter .comma ","
  let (type, _) ← fieldType
  expectDelimiter .rightAngle ">"
  let name ← expectIdent "mapName"
  expectDelimiter .equals "="
  let number ← fieldNumber
  let settings ← settings opts
  return { item := { keyType, type, name, number, settings }, notes := ← finish start }

/-- `ident "=" [ "-" ] intLit [ settings ] ";"` (`ProtoParser.parse_enum_field`) -/
def enumField (opts : Options) : Reading (Noted EnumField) := do
  let name ← expectIdent "ident"
  let start ← position
  expectDelimiter .equals "="
  let kind ← next .number
  let number ← text
  if kind ≠ .intLit ∨ sign? number = some '+' then reject "intLit"
  let settings ← settings opts
  return { item := { name, number, settings }, notes := ← finish start }

/-- `intLit [ "to" ( intLit | "max" ) ]` (`ProtoParser._parse_range`) -/
def range : Reading NumberRange := do
  let first ← expect .number .intLit "intLit"
  if (← nextKeyword) = .keyword .kwTo then
    match ← next (.union .keyword .number) with
    | .intLit | .keyword .kwMax => return { first, last := ← text }
    | _ => reject "intLit or max"
  else
    putBack
    return { first }

/-- `[ "," range ]` -/
def rangesRound (ranges : List NumberRange) :
    Reading (Round (List NumberRange) (List NumberRange)) := do
  if ← accept .comma then return .again (ranges ++ [← range]) else return .done ranges

/-- `range { "," range }` (`ProtoParser._parse_ranges`) -/
def ranges : Reading (List NumberRange) := do
  let first ← range
  repeatFrom [first] rangesRound

/-- `strLit [ "," ]` -/
def reservedNamesRound (names : List String) : Reading (Round (List String) (List String)) := do
  let name ← expect .string .stringLit "fieldName"
  let names := names ++ [name]
  if ← accept .comma then return .again names else return .done names

/-- `strLit { "," strLit }` (`ProtoParser._parse_reserved_names`) -/
def reservedNames : Reading (List String) := repeatFrom [] reservedNamesRound

/-- `"reserved" ( ranges | reservedNames ) ";"` (`ProtoParser.parse_reserved`) -/
def reserved : Reading (Noted Reserved) := do
  let start ← expectKeyword .kwReserved
  let item ←
    if (← peek .string) = .stringLit then pure { names := ← reservedNames : Reserved }
    else pure { ranges := ← ranges : Reserved }
  return { item, notes := ← finish start }

end ProtoIdl.Grammar
