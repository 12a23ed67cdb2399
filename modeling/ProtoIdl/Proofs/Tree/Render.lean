import ProtoIdl.Proofs.Token.Spaced
import ProtoIdl.Proofs.Tree.Node
import ProtoIdl.Proofs.Tree.Proper
/-!
# Writing a file

`File.render` writes a file without comments, its version first, with one blank between each two
words. `File.isWellFormed` says of which files the text can be read back: their parts are spelled as
the grammar has it, and no field starts with a word that means something else in its body.
`File.erase` removes the places, which a text cannot give back.
-/
namespace ProtoIdl

/-- What a printer may choose. -/
structure Style where
  /-- Blanks stand between the tokens of a name, and between the version and its quotes. -/
  loose : Bool := false
  /-- The quotes of the version. -/
  doubleQuotes : Bool := true
  /-- Which of the rpcs without options end with a semicolon. -/
  isBrief : Rpc → Bool := fun _ => true

/-- The tokens of a name: its words, and the characters between them. -/
def nameTokens (name : String) : List String :=
  (name.toList.splitBy fun a b => Text.isIdentChar a && Text.isIdentChar b).map String.ofList

/-! ## Spellings of the parts -/

namespace Spelling

/-- A string, a number or a truth value. -/
def isLiteral (w : String) : Bool :=
  isStrLit w.toList || isNumber w.toList || w == "true" || w == "false"

/-- `{ "." ident }` -/
def isDots : List String → Bool
  | [] => true
  | [_] => false
  | dot :: part :: rest => dot == "." && isIdent part.toList && isDots rest

/-- `ident { "." ident }` -/
def isFullIdent : List String → Bool
  | [] => false
  | first :: rest => isIdent first.toList && isDots rest

/-- Whether the first token is one of the words. -/
def startsWith (words ts : List String) : Bool := words.any fun w => ts.head? == some w

/-- `[ "." ] ident { "." ident }` -/
def isMessageType (ts : List String) : Bool :=
  isFullIdent (if startsWith ["."] ts then ts.tail else ts)

/-- A built-in type, or the name of a message or an enum. Of several words the first one is no
built-in type. -/
def isFieldType (ts : List String) : Bool :=
  isMessageType ts && (ts.tail.isEmpty || !startsWith Grammar.scalarTypes ts)

/-- `( ident | "(" fullIdent ")" ) { "." ident }` -/
def isOptionName (ts : List String) : Bool :=
  if startsWith ["("] ts then
    isFullIdent (ts.tail.takeWhile (· != ")")) &&
      startsWith [")"] (ts.tail.dropWhile (· != ")")) &&
        isDots (ts.tail.dropWhile (· != ")")).tail
  else isFullIdent ts

/-- A literal, or a name whose first word is not one. -/
def isConstant (w : String) : Bool :=
  isLiteral w || isFullIdent (nameTokens w) &&
    !startsWith ["true", "false", "inf", "nan"] (nameTokens w)

/-- An integer behind at most one minus. -/
def isEnumNumber : List Char → Bool
  | '-' :: rest => isIntLit rest
  | w => isIntLit w

end Spelling

open Spelling

/-! ## Words -/

namespace Style

variable (σ : Style)

/-- A name, in one word or with blanks between its tokens. -/
def name (name : String) : List String := if σ.loose then nameTokens name else [name]

/-- A constant; names are written as everywhere. -/
def constant (c : String) : List String := if isLiteral c then [c] else σ.name c

/-- The quote chosen. -/
def quote : String := if σ.doubleQuotes then "\"" else "'"

/-- A text between quotes. -/
def quoted (text : String) : List String :=
  if σ.loose then [σ.quote, text, σ.quote] else [σ.quote ++ text ++ σ.quote]

end Style

/-- Lists of words, separated by commas. -/
def commaList : List (List String) → List String
  | [] => []
  | ws :: rest => ws ++ rest.flatMap fun ws => "," :: ws

def Setting.words (σ : Style) (s : Setting) : List String := σ.name s.name ++ "=" :: σ.constant s.constant

/-- Settings between brackets; no brackets stand where there are no settings. -/
def settingsWords (σ : Style) (ss : List Setting) : List String :=
  if ss.isEmpty then [] else "[" :: commaList (ss.map (Setting.words σ)) ++ ["]"]

def NumberRange.words (r : NumberRange) : List String :=
  if r.last = "" then [r.first] else [r.first, "to", r.last]

/-- The words of a statement without its semicolon. -/
def Statement.words (σ : Style) : Statement → List String
  | .version v => ["syntax", "="] ++ σ.quoted v.text
  | .importing i =>
    "import" :: (if i.visibility = .plain then [] else [i.visibility.word]) ++ [i.location]
  | .package p => "package" :: σ.name p.name
  | .option o => "option" :: σ.name o.name ++ "=" :: σ.constant o.constant
  | .field f =>
    (if f.isRepeated then ["repeated"] else []) ++ σ.name f.type ++ [f.name, "=", f.number] ++
      settingsWords σ f.settings
  | .mapField f =>
    ["map", "<", f.keyType, ","] ++ σ.name f.type ++ [">", f.name, "=", f.number] ++
      settingsWords σ f.settings
  | .enumField f => [f.name, "=", f.number] ++ settingsWords σ f.settings
  | .reserved r =>
    "reserved" :: commaList (r.ranges.map NumberRange.words ++ r.names.map fun name => [name])

def RpcType.words (σ : Style) (t : RpcType) : List String :=
  "(" :: (if t.isStream then ["stream"] else []) ++ σ.name t.messageType ++ [")"]

/-- The words in front of a body. -/
def Head.words (σ : Style) : Head → List String
  | .oneof name => ["oneof", name]
  | .enum name => ["enum", name]
  | .extend messageType => "extend" :: σ.name messageType
  | .message name => ["message", name]
  | .service name => ["service", name]
  | .rpc r => ["rpc", r.name] ++ r.request.words σ ++ "returns" :: r.response.words σ

/-- Whether a head ends with a semicolon if the body is empty. -/
def Head.isBrief (σ : Style) : Head → Bool
  | .rpc r => σ.isBrief r
  | _ => false

mutual
/-- The words of an element. Comments are not written. -/
def Element.words (σ : Style) : Element → List String
  | .statement s _ => s.words σ ++ [";"]
  | .block head body _ _ =>
    head.words σ ++
      if body.isEmpty && head.isBrief σ then [";"] else "\x7b" :: Element.wordsAll σ body ++ ["\x7d"]
  | .comment _ | .fragment _ | .file _ _ => []

/-- The words of elements in a row. -/
def Element.wordsAll (σ : Style) : List Element → List String
  | [] => []
  | e :: es => e.words σ ++ Element.wordsAll σ es
end

/-- The words of a file. -/
def File.words (σ : Style) (f : File) : List String := Element.wordsAll σ f.elements

/-- The text of a file. -/
def File.render (σ : Style) (f : File) : String := " ".intercalate (f.words σ)

/-! ## Well-formed parts -/

def Setting.isWellFormed (s : Setting) : Bool :=
  isOptionName (nameTokens s.name) && isConstant s.constant

def NumberRange.isWellFormed (r : NumberRange) : Bool :=
  isIntLit r.first.toList && (r.last == "" || r.last == "max" || isIntLit r.last.toList)

/-- What comes behind the type of a field. -/
def isNumbered (name number : String) (settings : List Setting) : Bool :=
  isIdent name.toList && isIntLit number.toList && settings.all Setting.isWellFormed

/-- Whether the parts of a statement are spelled as the grammar has it. -/
def Statement.isWellFormed : Statement → Bool
  | .version v => v.text == "proto3"
  | .importing i => isStrLit i.location.toList
  | .package p => isFullIdent (nameTokens p.name)
  | .option o => isOptionName (nameTokens o.name) && isConstant o.constant && o.endpoint.isNone
  | .field f => isFieldType (nameTokens f.type) && isNumbered f.name f.number f.settings
  | .mapField f =>
    Grammar.keyTypes.contains f.keyType && isFieldType (nameTokens f.type) &&
      isNumbered f.name f.number f.settings
  | .enumField f =>
    isIdent f.name.toList && isEnumNumber f.number.toList && f.settings.all Setting.isWellFormed
  | .reserved r =>
    r.ranges.all NumberRange.isWellFormed && r.names.all (fun name => isStrLit name.toList) &&
      r.ranges.isEmpty != r.names.isEmpty

/-- Without `stream` in front, the first word of the type must not be that. -/
def RpcType.isWellFormed (t : RpcType) : Bool :=
  isMessageType (nameTokens t.messageType) &&
    (t.isStream || !startsWith ["stream"] (nameTokens t.messageType))

def Head.isWellFormed : Head → Bool
  | .oneof name | .enum name | .message name | .service name => isIdent name.toList
  | .extend messageType => isMessageType (nameTokens messageType)
  | .rpc r => isIdent r.name.toList && r.request.isWellFormed && r.response.isWellFormed

/-! ## Well-formed bodies -/

open Grammar (Scope)

/-- The words that no field of a body starts with, because something else does. -/
def barredWords : Scope → List String
  | .oneof => ["option", "repeated", "optional", "required", "map", "message", "enum", "oneof"]
  | .enum => ["option", "reserved"]
  | .message => ["repeated", "option", "map", "reserved", "enum", "message", "oneof", "extend"]
  | .file | .extend | .service | .rpc => ["repeated"]

/-- Whether a statement may stand in a body. A field of a oneof is not repeated. -/
def Statement.fits (scope : Scope) (s : Statement) : Bool :=
  (bodyHolds scope).contains s.production &&
    match s with
    | .field f =>
      if f.isRepeated then scope != .oneof
      else !startsWith (barredWords scope) (nameTokens f.type)
    | .enumField f => !(barredWords scope).contains f.name
    | _ => true

mutual
/-- Whether an element of a body can be read back. -/
def Element.isWellFormed (scope : Scope) : Element → Bool
  | .statement s _ => s.fits scope && s.isWellFormed
  | .block head body _ _ =>
    (bodyHolds scope).contains head.production && head.isWellFormed &&
      Element.areWellFormed head.scope body
  | .comment _ | .fragment _ | .file _ _ => false

/-- Whether all elements of a body can be read back. -/
def Element.areWellFormed (scope : Scope) : List Element → Bool
  | [] => true
  | e :: es => e.isWellFormed scope && Element.areWellFormed scope es
end

/-- Whether a file can be read back. -/
def File.isWellFormed (f : File) : Bool :=
  f.version.all (fun v => v.item.text == "proto3") && Element.areWellFormed .file f.body

/-! ## Places -/

/-- Removes the place of a declaration. -/
def Notes.erase (n : Notes) : Notes := { n with extent := {} }

/-- Removes the places of the types. -/
def Head.erase : Head → Head
  | .rpc r =>
    .rpc { r with request := { r.request with extent := {} },
                  response := { r.response with extent := {} } }
  | head => head

mutual
/-- Removes the places of an element and of everything below it. -/
def Element.erase : Element → Element
  | .statement s notes => .statement s notes.erase
  | .block head body behindCurly notes =>
    .block head.erase (Element.eraseAll body) behindCurly notes.erase
  | e => e

/-- Removes the places of all elements. -/
def Element.eraseAll : List Element → List Element
  | [] => []
  | e :: es => e.erase :: Element.eraseAll es
end

/-- Removes the places of all declarations. -/
def File.erase (f : File) : File where
  version := f.version.map fun v => { v with notes := v.notes.erase }
  body := Element.eraseAll f.body

end ProtoIdl
