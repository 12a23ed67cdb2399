import ProtoIdl.Token.Comment
import ProtoIdl.Token.Word
/-!
# The tokens of a text

`TokenStream.scan` hands out the next token under a mode, and `TokenStream.unscan` takes it back, so
that it can be scanned again under another mode. Comments passed over on the way are queued. A token
taken back is found again at its own start: the comments before it are not passed over twice.
-/
namespace ProtoIdl

namespace Scan

/-- Passes over white space and tells whether a comment follows (one turn of the loop of
`ProtoScanner._skip_whitespace`). -/
def gap : Scan Bool := do
  let _ ← run isBlank
  if (← peek) = some '/' then
    let following ← peekSecond
    return following = some '/' || following = some '*'
  else return false

end Scan

namespace Source

/-- Takes a scanning step. One that fails has read to the end of the text. -/
def take {α : Type} (step : Scan α) (s : Source) : Except LexicalError α × Source :=
  match step s.current with
  | .ok (a, c) => (.ok a, s.moveTo c)
  | .error e => (.error e, s.moveTo s.current.atEnd)

/-- What stands in front of a token. -/
inductive Lead
  /-- White space and comments only; the token starts here. -/
  | clear
  /-- Something that is handed out instead: a comment in a mode that wants them, a comment that is
  not closed, or the error of octets that are not UTF-8. -/
  | token (t : Token)
deriving DecidableEq, Repr

/-- Passes over white space and comments in front of a token (`ProtoScanner._skip_whitespace`). Each
comment is marked, and joins `passed` unless it is handed out. -/
def lead (mode : Mode) : (rounds : Nat) → (passed : List Token) → Source →
    Lead × List Token × Source
  | 0, passed, s => (.clear, passed, s)
  | rounds + 1, passed, s =>
    match s.take Scan.gap with
    | (.error e, s) => (.token (.ofError e), passed, s)
    | (.ok false, s) => (.clear, passed, s)
    | (.ok true, s) =>
      match s.mark.take Scan.comment with
      | (.error e, s) => (.token (.ofError e), passed, s)
      | (.ok t, s) =>
        if mode.comments || t.kind == .illegal then (.token t, passed, s)
        else lead mode rounds (passed ++ [t]) s

end Source

/-- The tokens of a text as they are handed out (`ProtoScanner`). -/
structure TokenStream where
  source : Source
  /-- A number that exceeds the number of characters in the text. -/
  rounds : Nat
  /-- Whether the last step was a scan, which can be taken back. -/
  canUnscan : Bool := false
  /-- Comments passed over and not yet claimed, oldest first. -/
  pending : List Token := []
  /-- Every token handed out, latest first. -/
  handedOut : List Token := []
deriving DecidableEq, Repr

namespace TokenStream

/-- The tokens of a text given as octets. -/
def ofBytes (bytes : List UInt8) (file : String) : TokenStream :=
  let source := Source.ofBytes bytes file
  { source, rounds := source.current.rest.length + 1 }

/-- Scans the next token (`ProtoScanner.scan`). Octets that are not UTF-8 make an illegal token at
their place. -/
def scan (mode : Mode) (s : TokenStream) : Token × TokenStream :=
  let (lead, passed, source) := s.source.lead mode s.rounds []
  let (token, source) :=
    match lead with
    | .token t => (t, source)
    | .clear =>
      match source.mark.take (Scan.token mode) with
      | (.ok t, source) => (t, source)
      | (.error e, source) => (.ofError e, source)
  (token, { s with source, canUnscan := true, pending := s.pending ++ passed,
                   handedOut := token :: s.handedOut })

/-- Takes the last token back: reading returns to the last mark (`ProtoScanner.unscan`). -/
def unscan (s : TokenStream) : Except Misuse TokenStream :=
  if s.canUnscan then .ok { s with source := s.source.reset, canUnscan := false }
  else .error .unscan

/-- Claims all queued comments (`ProtoLexer.drain_comments`). -/
def drain (s : TokenStream) : List Token × TokenStream := (s.pending, { s with pending := [] })

/-- Every lexical error met, oldest first (what `ProtoScanner._report` was called with). -/
def errors (s : TokenStream) : List LexicalError := s.handedOut.reverse.filterMap (·.error)

/-- The latest lexical error (`ProtoScanner.latest_err`). -/
def latestError? (s : TokenStream) : Option LexicalError := s.handedOut.findSome? (·.error)

/-- Scans tokens up to the end of the text, or `n` of them. -/
def scanAll (mode : Mode) : (n : Nat) → TokenStream → List Token × TokenStream
  | 0, s => ([], s)
  | n + 1, s =>
    let (t, s) := s.scan mode
    if t.kind = .eof then ([t], s)
    else
      let (ts, s) := scanAll mode n s
      (t :: ts, s)

end TokenStream

end ProtoIdl
