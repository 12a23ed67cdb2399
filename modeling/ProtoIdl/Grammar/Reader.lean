import ProtoIdl.Token.Stream
/-!
# Reading tokens

A `Reader` holds the current token of a text and, until it is put back, the one before. A
`Reading` is a step of a reader that may fail; the state a failure leaves is kept, so that reading
can go on from there. Loops are `Reading.repeatFrom`, which is bounded by the length of the text.
-/
namespace ProtoIdl

/-- A text being read token by token (`ProtoLexer`). -/
structure Reader where
  stream : TokenStream
  /-- The current token. -/
  token : Token
  /-- The token before the current one, unless the current one was put back. -/
  previous : Option Token := none
deriving DecidableEq, Repr

namespace Reader

/-- Before the first token the current one is empty, illegal and at no place of the file
(`ProtoLexer.__init__`). -/
def ofBytes (bytes : List UInt8) (file : String) : Reader :=
  { stream := TokenStream.ofBytes bytes file
    token := { kind := .illegal, text := "", position := { file } } }

/-- Reads the next token (`ProtoLexer.next`). -/
def next (mode : Mode) (r : Reader) : Reader :=
  let (token, stream) := r.stream.scan mode
  { stream, token, previous := some r.token }

/-- Puts the current token back; the one before becomes current again (`ProtoLexer.un_next`). -/
def putBack (r : Reader) : Except Misuse Reader :=
  match r.previous with
  | none => .error .putBack
  | some token => r.stream.unscan.map fun stream => { stream, token, previous := none }

/-- The failure of a reader that expected something else (`ProtoLexer.unexpected`). A malformed lexeme
is reported as what it is. -/
def unexpected (expected : String) (r : Reader) : Failure :=
  match r.token.error with
  | some e => .lexical e
  | none =>
    .unexpected (if r.token.kind = .eof then "EOF" else r.token.text) expected r.token.position

/-- A bound on the rounds of any loop over the tokens that are left. -/
def rounds (r : Reader) : Nat := r.stream.rounds + 4

end Reader

/-- A step of reading. -/
abbrev Reading := EStateM Failure Reader

namespace Reading

/-- Reads the next token; the answer is its kind. -/
def next (mode : Mode) : Reading Kind := do
  modify (·.next mode)
  return (← get).token.kind

/-- Reads the next token, which may be a keyword (`ProtoLexer.next_keyword`). -/
def nextKeyword : Reading Kind := next .keyword

/-- Puts the current token back. -/
def putBack : Reading Unit := do
  match (← get).putBack with
  | .ok r => set r
  | .error m => throw (.misuse m)

/-- The kind of the next token, which stays unread (`ProtoLexer.peek`). -/
def peek (mode : Mode) : Reading Kind := do
  let kind ← next mode
  putBack
  return kind

/-- The text of the current token. -/
def text : Reading String := return (← get).token.text

/-- The place of the current token. -/
def position : Reading Position := return (← get).token.position

/-- Stops because the current token is not what the grammar allows. -/
def reject {α : Type} (expected : String) : Reading α := do throw ((← get).unexpected expected)

/-- Reads a token that has to be of the given kind; the answer is its text. -/
def expect (mode : Mode) (kind : Kind) (expected : String) : Reading String := do
  if (← next mode) = kind then text else reject expected

/-- Reads a delimiter. -/
def expectDelimiter (d : Delimiter) (expected : String) : Reading Unit := do
  let _ ← expect .plain (.delimiter d) expected

/-- Reads a keyword; the answer is its place. -/
def expectKeyword (k : Keyword) : Reading Position := do
  let _ ← expect .keyword (.keyword k) k.word
  position

/-- Reads an identifier. -/
def expectIdent (expected : String) : Reading String := expect .plain .ident expected

/-- Reads the next token if it is the given delimiter, and tells whether it was. -/
def accept (d : Delimiter) : Reading Bool := do
  if (← next .plain) = .delimiter d then return true
  putBack
  return false

/-- How a round of a loop ends. -/
inductive Round (σ α : Type)
  | again (s : σ)
  | done (a : α)

/-- Repeats a round until it is done, at most `n` times. -/
def repeatAtMost {σ α : Type} (round : σ → Reading (Round σ α)) : (n : Nat) → σ → Reading α
  | 0, _ => throw .outOfRounds
  | n + 1, s => do
    match ← round s with
    | .again s => repeatAtMost round n s
    | .done a => return a

/-- Repeats a round until it is done. -/
def repeatFrom {σ α : Type} (s : σ) (round : σ → Reading (Round σ α)) : Reading α := do
  repeatAtMost round (← get).rounds s

/-- Comments skipped so far and not yet claimed, oldest first (`ProtoLexer.pending_comments`). -/
def pending : Reading (List Token) := return (← get).stream.pending

/-- Replaces the comments that are not yet claimed. -/
def setPending (comments : List Token) : Reading Unit :=
  modify fun r => { r with stream := { r.stream with pending := comments } }

end Reading

end ProtoIdl
