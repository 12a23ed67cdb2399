import ProtoIdl.Text.Position
import ProtoIdl.Text.Quoted
import ProtoIdl.Text.Utf8
/-!
# What can go wrong while reading

A failure is a cause; its wording is `Failure.message`. A `LexicalError` is found in the characters,
an unexpected token in the grammar, and a `Misuse` is a step back that nothing preceded.
-/
namespace ProtoIdl

/-- Causes of a malformed lexeme (the messages of a `ProtoScanError`). -/
inductive LexicalFault
  | unterminatedComment
  | unterminatedString
  | invalidEscape
  /-- The characters read do not form a number. -/
  | invalidNumber (text : String)
  /-- The octets that follow are not UTF-8. -/
  | illFormed (fault : Utf8.Fault)
deriving DecidableEq, Repr

/-- The wording of a lexical fault. -/
def LexicalFault.message : LexicalFault → String
  | .unterminatedComment => "unterminated block comment"
  | .unterminatedString => "unterminated string literal"
  | .invalidEscape => "invalid escape sequence in string literal"
  | .invalidNumber text => "invalid number literal " ++ Text.quoted text
  | .illFormed fault => "invalid UTF-8 encoding: " ++ fault.message

/-- A lexical fault and the place where it is reported (`ProtoScanError`). -/
structure LexicalError where
  fault : LexicalFault
  position : Position
deriving DecidableEq, Repr

/-- Puts the place in front of a message, if there is one (`ProtoParseError.__init__`). -/
def located (position : Option Position) (text : String) : String :=
  match position with
  | some p => p.render ++ ": " ++ text
  | none => text

/-- A lexical error as it is shown. -/
def LexicalError.message (e : LexicalError) : String := located (some e.position) e.fault.message

/-- A step back without a step forward to undo (the errors of `RuneSource.unread`,
`ProtoScanner.unscan` and `ProtoLexer.un_next`). -/
inductive Misuse
  | unread
  | unscan
  | putBack
deriving DecidableEq, Repr

/-- The wording of a misuse. -/
def Misuse.message : Misuse → String
  | .unread => "unread without a preceding next"
  | .unscan => "unscan without a preceding scan"
  | .putBack => "un_next without a preceding next"

/-- Reasons for which reading stops (`ProtoParseError`). -/
inductive Failure
  | lexical (error : LexicalError)
  /-- The token found is not one of those that may follow. -/
  | unexpected (found expected : String) (position : Position)
  | misuse (misuse : Misuse)
  /-- The bound on the number of rounds was reached; it never is on well-formed text. -/
  | outOfRounds
deriving DecidableEq, Repr

/-- The place of a failure. -/
def Failure.position? : Failure → Option Position
  | .lexical e => some e.position
  | .unexpected _ _ p => some p
  | .misuse _ | .outOfRounds => none

/-- A failure as it is shown. -/
def Failure.message : Failure → String
  | .lexical e => e.message
  | .unexpected found expected p =>
    located (some p) ("found " ++ found ++ ", but expected " ++ expected)
  | .misuse m => m.message
  | .outOfRounds => "out of rounds"

end ProtoIdl
