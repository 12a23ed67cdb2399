import ProtoIdl.Text.Source
/-!
# Scanning steps

A scanning step reads a part of the text from a cursor on. It fails only where it has to look at
octets that are not UTF-8, and then with the error of `Cursor.peek`. Every step here moves the
cursor by `Cursor.advance`, so places need no care of their own.
-/
namespace ProtoIdl

/-- Reads from a cursor on. -/
abbrev Scan := StateT Cursor (Except LexicalError)

namespace Scan

/-- The place reached. -/
def here : Scan Position := fun c => .ok (c.position, c)

/-- The next character, `none` at the end of the text. -/
def peek : Scan (Option Char) := fun c => do
  let char ← c.peek
  return (char, c)

/-- Passes over `n` characters that were looked at before. -/
def skip (n : Nat) : Scan Unit := fun c => .ok ((), c.advance n)

/-- Reads the characters with a property up to the first without it, which is looked at
(`ProtoScanner._take`). -/
def run (p : Char → Bool) : Scan (List Char) := fun c => do
  let taken := c.rest.takeWhile p
  let c := c.advance taken.length
  let _ ← c.peek
  return (taken, c)

/-- Reads at most `n` characters with a property (`ProtoScanner._take_at_most`). The character behind
`n` is not looked at. -/
def upTo : (n : Nat) → (p : Char → Bool) → Scan (List Char)
  | 0, _ => return []
  | n + 1, p => do
    match ← peek with
    | none => return []
    | some c =>
      if p c then
        skip 1
        return c :: (← upTo n p)
      else return []

/-- What comes behind the next character, which itself is known; nothing is read. -/
def peekSecond : Scan (Option Char) := fun c => do
  let char ← (c.advance 1).peek
  return (char, c)

end Scan

end ProtoIdl
