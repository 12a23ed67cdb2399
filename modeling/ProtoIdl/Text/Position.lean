/-!
# Positions

A position names a place in a text: the file, the number of bytes before it (from 0), and its line
and column (from 1, the column in characters). `Position.after` moves a position over characters;
`Position.after_append` says that moving over two texts in turn is moving over their concatenation.
-/
namespace ProtoIdl

/-- A place in a text. The zero position stands for "no place". -/
structure Position where
  /-- Name of the file, empty for a text without a name. -/
  file : String := ""
  /-- Bytes before the place, in UTF-8. -/
  offset : Int := 0
  /-- Line, counted from 1. -/
  line : Int := 0
  /-- Column, counted from 1 in characters. -/
  column : Int := 0
deriving DecidableEq, Repr, Inhabited

/-- A range of positions, both ends included; `last` is the zero position when it is unknown (`Meta`). -/
structure Extent where
  start : Position := {}
  last : Position := {}
deriving DecidableEq, Repr, Inhabited

namespace Position

/-- The first place of a file. -/
def first (file : String) : Position := { file, offset := 0, line := 1, column := 1 }

/-- The place behind the character `c`: a newline starts a line, all else is one column wide
(`RuneSource.next`, with `_utf8_width`). -/
def advance (p : Position) (c : Char) : Position :=
  let offset := p.offset + c.utf8Size
  if c = '\n' then { p with offset, line := p.line + 1, column := 1 }
  else { p with offset, column := p.column + 1 }

/-- The place behind a run of characters. -/
def after (p : Position) (cs : List Char) : Position := cs.foldl advance p

@[simp]
theorem after_nil (p : Position) : p.after [] = p := rfl

@[simp]
theorem after_cons (p : Position) (c : Char) (cs : List Char) :
    p.after (c :: cs) = (p.advance c).after cs := rfl

theorem after_append (p : Position) (cs ds : List Char) :
    p.after (cs ++ ds) = (p.after cs).after ds := List.foldl_append

/-- Moving forward keeps the file. -/
@[simp]
theorem file_advance (p : Position) (c : Char) : (p.advance c).file = p.file := by
  simp only [advance]; split <;> rfl

/-- Only positions that name a line are valid (`Position.is_valid`). -/
def isValid (p : Position) : Bool := decide (0 < p.line)

/-- The written form `file:line:column`; a text without a name is called `<input>`
(`Position.__str__`). -/
def render (p : Position) : String :=
  (if p.file = "" then "<input>" else p.file) ++ ":" ++ toString p.line ++ ":" ++ toString p.column

end Position

end ProtoIdl
