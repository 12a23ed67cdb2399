import ProtoIdl.Token.Stream
/-!
# The log of a text

Each token handed out makes a line, and an error in it a line before.
-/
namespace ProtoIdl

/-- How important a line of a log is. -/
inductive Severity
  | debug
  | warning
deriving DecidableEq

/-- The name of a severity. -/
def Severity.name : Severity → String
  | .debug => "DEBUG"
  | .warning => "WARNING"

/-- A line of a log. -/
structure LogLine where
  severity : Severity
  text : String
deriving DecidableEq

/-- The lines of a token (logged by `ProtoLexer._on_error` and `ProtoLexer.next`). -/
def Token.log (t : Token) : List LogLine :=
  let warning := t.error.toList.map fun e =>
    { severity := .warning, text := "Lexer encountered the error " ++ e.message : LogLine }
  let token : LogLine :=
    { severity := .debug
      text := "Text=[" ++ t.text ++ "], Token=[" ++ t.kind.name ++ "], Pos=["
        ++ t.position.render ++ "]" }
  warning ++ [token]

/-- The lines of every token handed out, in order. -/
def TokenStream.log (s : TokenStream) : List LogLine := s.handedOut.reverse.flatMap (·.log)

end ProtoIdl
