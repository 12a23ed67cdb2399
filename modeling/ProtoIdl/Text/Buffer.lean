import ProtoIdl.Text.Source
/-!
# Reading octets in chunks

A `Buffer` reads as a `Source` does, from octets that come in chunks. It decodes a chunk when the
characters it has are used up, and holds back the octets of a character that the chunk cuts. Characters
before the last mark are let go of once they are many.
-/
namespace ProtoIdl

namespace Utf8

/-- What the octets of a chunk give. -/
structure Piece where
  chars : List Char
  /-- Octets at the end that wait for those of the next chunk. -/
  held : List UInt8 := []
  fault : Option Fault := none
deriving DecidableEq

/-- Whether the octets behind the last character wait for more. They do where a character is cut; two
octets that begin a surrogate wait for the third, although nothing can make them a character. -/
def waits : Fault → List UInt8 → Bool
  | .unexpectedEnd, _ => true
  | .invalidContinuation, [b₀, b₁] => decide (b₀ = 0xED) && decide (0xA0 ≤ b₁) && decide (b₁ ≤ 0xBF)
  | _, _ => false

/-- Decodes octets, behind which there are no others if they are the last (one call of the decoder in
`RuneSource._fill`). -/
def decodePiece (last : Bool) (bytes : List UInt8) : Piece :=
  let text := decode bytes
  let rest := bytes.drop (text.1.flatMap String.utf8EncodeChar).length
  match text.2 with
  | none => { chars := text.1 }
  | some f =>
    if !last && waits f rest then { chars := text.1, held := rest }
    else { chars := text.1, fault := some f }

end Utf8

/-- A text being read from chunks of octets (`RuneSource`, with the chunks of its reader). An empty
chunk is the end of the octets. -/
structure Buffer where
  /-- The chunks not yet read. -/
  chunks : List (List UInt8)
  /-- Octets of the last chunk that wait for those of the next. -/
  held : List UInt8 := []
  /-- Whether the octets have ended, or have turned out to be ill-formed. -/
  isClosed : Bool := false
  fault : Option Utf8.Fault := none
  /-- The characters that are kept. -/
  text : List Char := []
  /-- The place of the next character among those kept. -/
  index : Nat := 0
  markIndex : Nat := 0
  position : Position
  previous : Position
  marked : Position
deriving DecidableEq

namespace Buffer

/-- Reading starts at the first chunk (`RuneSource.__init__`). -/
def ofChunks (chunks : List (List UInt8)) (file : String) : Buffer :=
  let start := Position.first file
  { chunks, position := start, previous := start, marked := start }

/-- The number of octets that a file is asked for at once, and of characters that are not let go of
(`_CHUNK_SIZE`). -/
def size : Nat := 4096

/-- The chunks of a file: all are full but the last. -/
def split : List UInt8 → List (List UInt8)
  | [] => []
  | b :: rest => (b :: rest.take (size - 1)) :: split (rest.drop (size - 1))
termination_by bytes => bytes.length

/-- Decodes a chunk; `rest` are the chunks behind it (one turn of the loop of `RuneSource._fill`). -/
def receive (chunk : List UInt8) (rest : List (List UInt8)) (b : Buffer) : Buffer :=
  let piece := Utf8.decodePiece chunk.isEmpty (b.held ++ chunk)
  { b with chunks := rest, held := piece.held, fault := piece.fault
           isClosed := chunk.isEmpty || piece.fault.isSome, text := b.text ++ piece.chars }

/-- Reads chunks until there is another character or the octets have ended (`RuneSource._fill`). -/
def fillFrom : (chunks : List (List UInt8)) → Buffer → Buffer
  | [], b => if b.isClosed then b else b.receive [] []
  | chunk :: rest, b =>
    if b.isClosed then b
    else
      let filled := b.receive chunk rest
      if filled.text.length = b.text.length then fillFrom rest filled else filled

/-- Makes sure that there is a character to look at, unless the text has ended. -/
def fill (b : Buffer) : Buffer :=
  if b.index < b.text.length then b else b.fillFrom b.chunks

/-- The next character, `none` at the end of the text (`RuneSource.peek`). -/
def peek (b : Buffer) : Except LexicalError (Option Char) × Buffer :=
  let b := b.fill
  match b.text[b.index]?, b.fault with
  | some char, _ => (.ok (some char), b)
  | none, none => (.ok none, b)
  | none, some fault => (.error ⟨.illFormed fault, b.position⟩, b)

/-- Reads the next character (`RuneSource.next`). -/
def next (b : Buffer) : Except LexicalError (Option Char) × Buffer :=
  match b.peek with
  | (.ok (some char), b) =>
    (.ok (some char), { b with index := b.index + 1, position := b.position.advance char
                               previous := b.position })
  | other => other

/-- Goes back to before the last character read (`RuneSource.unread`). -/
def unread (b : Buffer) : Option Buffer :=
  if b.index = 0 ∨ b.position = b.previous then none
  else some { b with index := b.index - 1, position := b.previous }

/-- Lets go of the characters read, if they are many (the first step of `RuneSource.mark`). -/
def trim (b : Buffer) : Buffer :=
  if size < b.index then { b with text := b.text.drop b.index, index := 0 } else b

/-- Remembers this place (`RuneSource.mark`). -/
def mark (b : Buffer) : Buffer :=
  let b := b.trim
  { b with markIndex := b.index, marked := b.position, previous := b.position }

/-- Goes back to the last mark (`RuneSource.reset`). -/
def reset (b : Buffer) : Buffer :=
  { b with index := b.markIndex, position := b.marked, previous := b.marked }

end Buffer

end ProtoIdl
