import ProtoIdl.Failure
/-!
# Reading a text character by character

A `Cursor` is what is left of a text together with its place. A `Source` keeps three of them: where
reading stands, where it stood before the last character, and the last mark. Octets that are not
UTF-8 end the text in front of them; looking at its end then is an error, reported there.

Main statements: `Cursor.advance_add` (two advances are one) and the equations that say what each
operation of a source does to its cursors.
-/
namespace ProtoIdl

/-- The rest of a text, and its place. -/
structure Cursor where
  /-- The characters not yet read. -/
  rest : List Char
  /-- What makes the octets behind the last character ill-formed, if they are. -/
  ending : Option Utf8.Fault
  /-- The place of the next character. -/
  position : Position
deriving DecidableEq, Repr

namespace Cursor

/-- The beginning of a text given as octets. -/
def ofBytes (bytes : List UInt8) (file : String) : Cursor :=
  let (rest, ending) := Utf8.decode bytes
  { rest, ending, position := Position.first file }

/-- Moves over `n` characters, or to the end of a shorter text. -/
def advance (n : Nat) (c : Cursor) : Cursor :=
  { c with rest := c.rest.drop n, position := c.position.after (c.rest.take n) }

/-- The end of the text. -/
def atEnd (c : Cursor) : Cursor := c.advance c.rest.length

/-- The next character, `none` at the end of the text. -/
def peek (c : Cursor) : Except LexicalError (Option Char) :=
  match c.rest, c.ending with
  | char :: _, _ => .ok (some char)
  | [], none => .ok none
  | [], some fault => .error ⟨.illFormed fault, c.position⟩

@[simp]
theorem advance_zero (c : Cursor) : c.advance 0 = c := by simp [advance]

theorem advance_add (m n : Nat) (c : Cursor) : c.advance (m + n) = (c.advance m).advance n := by
  simp [advance, ← Position.after_append, List.take_add]

@[simp]
theorem ending_advance (n : Nat) (c : Cursor) : (c.advance n).ending = c.ending := rfl

@[simp]
theorem rest_advance (n : Nat) (c : Cursor) : (c.advance n).rest = c.rest.drop n := rfl

@[simp]
theorem rest_atEnd (c : Cursor) : c.atEnd.rest = [] := by simp [atEnd]

end Cursor

/-- A text being read, with one step back and one mark (`RuneSource`). -/
structure Source where
  current : Cursor
  previous : Cursor
  marked : Cursor
deriving DecidableEq, Repr

namespace Source

/-- Reading starts at the beginning of the octets, which is also the first mark. -/
def ofBytes (bytes : List UInt8) (file : String) : Source :=
  let start := Cursor.ofBytes bytes file
  { current := start, previous := start, marked := start }

/-- The next character, `none` at the end of the text (`RuneSource.peek`). -/
def peek (s : Source) : Except LexicalError (Option Char) := s.current.peek

/-- Reads the next character (`RuneSource.next`). The end of the text is not a character: there
nothing moves. -/
def next (s : Source) : Except LexicalError (Option Char × Source) :=
  match s.current.peek with
  | .error e => .error e
  | .ok none => .ok (none, s)
  | .ok (some char) =>
    .ok (some char, { s with current := s.current.advance 1, previous := s.current })

/-- Goes back to before the last character read (`RuneSource.unread`). Only one step can be undone,
and none after a mark or a return to it. -/
def unread (s : Source) : Option Source :=
  if s.current.position = s.previous.position then none else some { s with current := s.previous }

/-- Remembers this place (`RuneSource.mark`). -/
def mark (s : Source) : Source := { s with marked := s.current, previous := s.current }

/-- Goes back to the last mark (`RuneSource.reset`). -/
def reset (s : Source) : Source := { s with current := s.marked, previous := s.marked }

/-- Moves on to a cursor further down the text; this step cannot be undone. -/
def moveTo (s : Source) (c : Cursor) : Source := { s with current := c, previous := c }

@[simp]
theorem current_mark (s : Source) : s.mark.current = s.current := rfl

@[simp]
theorem marked_mark (s : Source) : s.mark.marked = s.current := rfl

@[simp]
theorem current_reset (s : Source) : s.reset.current = s.marked := rfl

@[simp]
theorem marked_reset (s : Source) : s.reset.marked = s.marked := rfl

@[simp]
theorem current_moveTo (s : Source) (c : Cursor) : (s.moveTo c).current = c := rfl

@[simp]
theorem marked_moveTo (s : Source) (c : Cursor) : (s.moveTo c).marked = s.marked := rfl

/-- Reading a character moves both cursors by one. -/
theorem next_of_peek {s : Source} {char : Char} (h : s.peek = .ok (some char)) :
    s.next = .ok (some char, { s with current := s.current.advance 1, previous := s.current }) := by
  simp only [peek] at h
  simp only [next, h]

/-- Directly after a mark nothing can be unread. -/
theorem unread_mark (s : Source) : s.mark.unread = none := by simp [unread, mark]

/-- Directly after a return to the mark nothing can be unread. -/
theorem unread_reset (s : Source) : s.reset.unread = none := by simp [unread, reset]

end Source

end ProtoIdl
