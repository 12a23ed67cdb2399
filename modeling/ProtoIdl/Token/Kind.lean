/-!
# Kinds of tokens

Keywords, delimiters, literals and the tokens that are none of these. Every keyword is spelled by
one word; `Keyword.ofWord?_word` says that reading the word gives the keyword back.
-/
namespace ProtoIdl

/-- The words with a meaning of their own, where a keyword may stand (`KEYWORD_TYPES`). -/
inductive Keyword
  | kwSyntax
  | kwImport
  | kwWeak
  | kwPublic
  | kwPackage
  | kwOption
  | kwMessage
  | kwEnum
  | kwService
  | kwRpc
  | kwReturns
  | kwStream
  | kwOneof
  | kwMap
  | kwReserved
  | kwTo
  | kwMax
  | kwExtensions
  | kwExtend
  | kwRepeated
  | kwOptional
  | kwRequired
  | kwAdditionalBindings
deriving DecidableEq, Repr

namespace Keyword

/-- Every keyword, in the order of the grammar. -/
def all : List Keyword :=
  [.kwSyntax, .kwImport, .kwWeak, .kwPublic, .kwPackage, .kwOption, .kwMessage, .kwEnum,
   .kwService, .kwRpc, .kwReturns, .kwStream, .kwOneof, .kwMap, .kwReserved, .kwTo, .kwMax,
   .kwExtensions, .kwExtend, .kwRepeated, .kwOptional, .kwRequired, .kwAdditionalBindings]

/-- The spelling of a keyword (`_KEYWORDS`). -/
def word : Keyword → String
  | .kwSyntax => "syntax"
  | .kwImport => "import"
  | .kwWeak => "weak"
  | .kwPublic => "public"
  | .kwPackage => "package"
  | .kwOption => "option"
  | .kwMessage => "message"
  | .kwEnum => "enum"
  | .kwService => "service"
  | .kwRpc => "rpc"
  | .kwReturns => "returns"
  | .kwStream => "stream"
  | .kwOneof => "oneof"
  | .kwMap => "map"
  | .kwReserved => "reserved"
  | .kwTo => "to"
  | .kwMax => "max"
  | .kwExtensions => "extensions"
  | .kwExtend => "extend"
  | .kwRepeated => "repeated"
  | .kwOptional => "optional"
  | .kwRequired => "required"
  | .kwAdditionalBindings => "additional_bindings"

/-- The keyword that a word spells. -/
def ofWord? (w : String) : Option Keyword := all.find? fun k => k.word == w

/-- The name of a keyword as a kind of token: its word in capitals. -/
def name : Keyword → String
  | .kwSyntax => "SYNTAX"
  | .kwImport => "IMPORT"
  | .kwWeak => "WEAK"
  | .kwPublic => "PUBLIC"
  | .kwPackage => "PACKAGE"
  | .kwOption => "OPTION"
  | .kwMessage => "MESSAGE"
  | .kwEnum => "ENUM"
  | .kwService => "SERVICE"
  | .kwRpc => "RPC"
  | .kwReturns => "RETURNS"
  | .kwStream => "STREAM"
  | .kwOneof => "ONEOF"
  | .kwMap => "MAP"
  | .kwReserved => "RESERVED"
  | .kwTo => "TO"
  | .kwMax => "MAX"
  | .kwExtensions => "EXTENSIONS"
  | .kwExtend => "EXTEND"
  | .kwRepeated => "REPEATED"
  | .kwOptional => "OPTIONAL"
  | .kwRequired => "REQUIRED"
  | .kwAdditionalBindings => "ADDITIONAL_BINDINGS"

/-- A keyword is read back from its word. -/
@[simp]
theorem ofWord?_word (k : Keyword) : ofWord? k.word = some k := by cases k <;> decide

/-- Only its own word is read as a keyword. -/
theorem word_of_ofWord? {w : String} {k : Keyword} (h : ofWord? w = some k) : k.word = w := by
  simpa using List.find?_some h

end Keyword

/-- The characters that are tokens by themselves (the values of `_DELIMITERS`). Both quotes are one
delimiter. -/
inductive Delimiter
  | equals
  | semicolon
  | comma
  | dot
  | colon
  | leftParen
  | rightParen
  | leftBrace
  | rightBrace
  | leftBracket
  | rightBracket
  | leftAngle
  | rightAngle
  | minus
  | plus
  | slash
  | quote
deriving DecidableEq, Repr

namespace Delimiter

/-- The delimiter that a character is (`_DELIMITERS`). -/
def ofChar? : Char → Option Delimiter
  | '=' => some .equals
  | ';' => some .semicolon
  | ',' => some .comma
  | '.' => some .dot
  | ':' => some .colon
  | '(' => some .leftParen
  | ')' => some .rightParen
  | '{' => some .leftBrace
  | '}' => some .rightBrace
  | '[' => some .leftBracket
  | ']' => some .rightBracket
  | '<' => some .leftAngle
  | '>' => some .rightAngle
  | '-' => some .minus
  | '+' => some .plus
  | '/' => some .slash
  | '"' => some .quote
  | '\'' => some .quote
  | _ => none

/-- The name of a delimiter as a kind of token. -/
def name : Delimiter → String
  | .equals => "EQUALS"
  | .semicolon => "SEMICOLON"
  | .comma => "COMMA"
  | .dot => "DOT"
  | .colon => "COLON"
  | .leftParen => "LPAREN"
  | .rightParen => "RPAREN"
  | .leftBrace => "LBRACE"
  | .rightBrace => "RBRACE"
  | .leftBracket => "LBRACKET"
  | .rightBracket => "RBRACKET"
  | .leftAngle => "LANGLE"
  | .rightAngle => "RANGLE"
  | .minus => "MINUS"
  | .plus => "PLUS"
  | .slash => "SLASH"
  | .quote => "QUOTE"

end Delimiter

/-- The kind of a token (`ProtoTokenType`). -/
inductive Kind
  | keyword (k : Keyword)
  | delimiter (d : Delimiter)
  | ident
  | intLit
  | floatLit
  | stringLit
  | boolLit
  | comment
  /-- Characters that form no token; with an error if a lexeme was begun and is malformed. -/
  | illegal
  /-- The end of the text. -/
  | eof
deriving DecidableEq, Repr

namespace Kind

/-- The name of a kind. -/
def name : Kind → String
  | .keyword k => k.name
  | .delimiter d => d.name
  | .ident => "IDENT"
  | .intLit => "INT_LIT"
  | .floatLit => "FLOAT_LIT"
  | .stringLit => "STRING_LIT"
  | .boolLit => "BOOL_LIT"
  | .comment => "COMMENT"
  | .illegal => "ILLEGAL"
  | .eof => "EOF"

/-- The kinds of literals (`_LITERALS`). -/
def isLiteral : Kind → Bool
  | .stringLit | .intLit | .floatLit | .boolLit => true
  | _ => false

end Kind

end ProtoIdl
