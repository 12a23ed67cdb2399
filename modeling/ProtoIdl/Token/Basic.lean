import ProtoIdl.Token.Kind
import ProtoIdl.Failure
/-!
# Tokens and the modes that decide them

The same characters are different tokens in different places of the grammar, so a `Mode` says which
classes of tokens are wanted.
-/
namespace ProtoIdl

/-- What a word, a quote, a digit or a comment is taken for (`ScanMode`). -/
structure Mode where
  /-- Words may be keywords. -/
  keywords : Bool := false
  /-- A quote opens a string. -/
  strings : Bool := false
  /-- Signs and dots may belong to a number, and `inf` and `nan` are numbers. -/
  numbers : Bool := false
  /-- The words `true` and `false` are literals. -/
  booleans : Bool := false
  /-- Comments are tokens instead of being passed over. -/
  comments : Bool := false
deriving DecidableEq, Repr, Inhabited

namespace Mode

/-- Delimiters, words and unsigned numbers only (`ScanMode.DEFAULT`). -/
def plain : Mode := {}

/-- Words may be keywords (`ScanMode.KEYWORD`). -/
def keyword : Mode := { keywords := true }

/-- Strings are wanted (`ScanMode.STRING_LIT`). -/
def string : Mode := { strings := true }

/-- Numbers are wanted, with their signs (`ScanMode.NUMBER_LIT`). -/
def number : Mode := { numbers := true }

/-- All literals are wanted (`ScanMode.LIT`). -/
def literal : Mode := { strings := true, numbers := true, booleans := true }

/-- What either of two modes allows. -/
def union (a b : Mode) : Mode where
  keywords := a.keywords || b.keywords
  strings := a.strings || b.strings
  numbers := a.numbers || b.numbers
  booleans := a.booleans || b.booleans
  comments := a.comments || b.comments

end Mode

/-- A token of the text (`ProtoToken`). -/
structure Token where
  kind : Kind
  /-- The characters of the token; adjacent string literals are joined into one. -/
  text : String
  /-- Where the token starts, or where its error is reported. -/
  position : Position
  /-- The place of the last character; known for comments only. -/
  last : Option Position := none
  /-- What makes the token illegal, if it is a malformed lexeme. -/
  error : Option LexicalError := none
deriving DecidableEq, Repr

namespace Token

/-- A token of the given kind, made of the characters read. -/
def make (kind : Kind) (chars : List Char) (position : Position) : Token :=
  { kind, text := String.ofList chars, position }

/-- An illegal token that carries its error and stands where the error is (`ProtoScanner._illegal`). -/
def malformed (chars : List Char) (fault : LexicalFault) (position : Position) : Token :=
  { kind := .illegal, text := String.ofList chars, position, error := some ⟨fault, position⟩ }

/-- The token that stands for an error met while looking for one (the handler of `ProtoScanner.scan`). -/
def ofError (e : LexicalError) : Token :=
  { kind := .illegal, text := "", position := e.position, error := some e }

end Token

end ProtoIdl
