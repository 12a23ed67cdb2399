import ProtoIdl.Token.Basic
import ProtoIdl.Token.Scan
/-!
# Comments

A line comment runs from `//` to the end of its line, carriage returns at the end left out. A block
comment runs from `/*` to the first `*/` behind it.
-/
namespace ProtoIdl.Scan

/-- The number of characters up to the end of the first `*/`. -/
def untilClosed : List Char → Option Nat
  | '*' :: '/' :: _ => some 2
  | _ :: rest => (untilClosed rest).map (· + 1)
  | [] => none

/-- Removes the carriage returns at the end. -/
def dropReturns (chars : List Char) : List Char :=
  (chars.reverse.dropWhile (· == '\r')).reverse

/-- A comment made of the next `n` characters, trimmed by `trim`. Its last character is the last
one read. -/
def commentOf (n : Nat) (trim : List Char → List Char) : Scan Token := do
  let c ← get
  skip n
  return { kind := .comment, text := String.ofList (trim (c.rest.take n)), position := c.position,
           last := some (c.advance (n - 1)).position }

/-- A line comment, from its first slash on (the first half of `ProtoScanner._scan_comment`). -/
def lineComment : Scan Token := do
  let c ← get
  let chars ← run (· != '\n')
  set c
  commentOf chars.length dropReturns

/-- A block comment, from its slash on (the second half of `ProtoScanner._scan_comment`). -/
def blockComment : Scan Token := do
  let c ← get
  match untilClosed (c.rest.drop 2) with
  | some n => commentOf (n + 2) id
  | none =>
    skip c.rest.length
    let _ ← peek
    return .malformed c.rest .unterminatedComment c.position

/-- A comment, from its first slash on (`ProtoScanner._scan_comment`). -/
def comment : Scan Token := do
  if (← peekSecond) = some '/' then lineComment else blockComment

end ProtoIdl.Scan
