import ProtoIdl.Text.CodePoint
import ProtoIdl.Token.Basic
import ProtoIdl.Token.Scan
/-!
# Strings

A string is written between two equal quotes on one line. Literals with only white space between
them are one string: the joined text stands between the quotes of the first literal, so a quote of
that kind inside a later literal is escaped. Escapes are checked and kept as they are written.
-/
namespace ProtoIdl.Scan

open Text (isOctalDigit isHexDigit)

/-- White space between tokens: space, tab, carriage return and newline (`_WHITESPACE`). -/
def isBlank (c : Char) : Bool := c == ' ' || c == '\t' || c == '\r' || c == '\n'

/-- Either of the two quotes (`_QUOTES`). -/
def isQuote (c : Char) : Bool := c == '"' || c == '\''

/-- A character that is an escape by itself when it follows a backslash (`_SIMPLE_ESCAPES`). -/
def isSimpleEscape (c : Char) : Bool := "abfnrtv\\'\"?".toList.contains c

/-- How a backslash goes on. -/
inductive Escape
  /-- The characters behind the backslash form an escape. -/
  | valid (chars : List Char)
  /-- They do not; `read` of them were read. -/
  | invalid (read : Nat)
deriving DecidableEq, Repr

/-- The characters behind a backslash: one of `abfnrtv\'"?`, up to three octal digits, `x` with one or
two hexadecimal digits, `u` with four or `U` with eight (`ProtoScanner._scan_escape`). -/
def escape : Scan Escape := do
  match ← peek with
  | none => return .invalid 0
  | some c =>
    skip 1
    if isSimpleEscape c then return .valid [c]
    else if isOctalDigit c then
      let digits ← upTo 2 isOctalDigit
      return .valid (c :: digits)
    else if c = 'x' ∨ c = 'X' then
      let digits ← upTo 2 isHexDigit
      return if digits.isEmpty then .invalid 1 else .valid (c :: digits)
    else if c = 'u' ∨ c = 'U' then
      let width := if c = 'u' then 4 else 8
      let digits ← upTo width isHexDigit
      return if digits.length = width then .valid (c :: digits) else .invalid (1 + digits.length)
    else return .invalid 1

/-- How the body of a literal ends. The characters of the string read so far, in the order in which
they can be taken off again: the latest first. -/
inductive Body
  /-- At its quote. -/
  | closed (latest : List Char)
  /-- At the end of the line or of the text. -/
  | unterminated (latest : List Char)
  /-- At a malformed escape, whose last character read is at `position`. -/
  | badEscape (latest : List Char) (position : Position)
deriving DecidableEq, Repr

/-- Reads the body of a literal that `close` ends, for a string that stands between the quotes
`outer`; `latest` was read before (the inner loop of `ProtoScanner._scan_string`). -/
def body (outer close : Char) : (rounds : Nat) → (latest : List Char) → Scan Body
  | 0, latest => return .unterminated latest
  | rounds + 1, latest => do
    match ← peek with
    | none => return .unterminated latest
    | some c =>
      let backslash ← get
      skip 1
      if c = '\n' then return .unterminated latest
      else if c = close then return .closed latest
      else if c = '\\' then
        match ← escape with
        | .valid escaped => body outer close rounds (escaped.reverse ++ '\\' :: latest)
        | .invalid read => return .badEscape latest (backslash.advance read).position
      else if c = outer then body outer close rounds (c :: '\\' :: latest)
      else body outer close rounds (c :: latest)

/-- The token of a string that is complete. -/
def quotedToken (outer : Char) (latest : List Char) (start : Position) : Token :=
  .make .stringLit (outer :: latest.reverse ++ [outer]) start

/-- Reads literals and joins them, from a quote on; `latest` was read before (the outer loop of
`ProtoScanner._scan_string`). -/
def literals (outer : Char) (start : Position) :
    (rounds : Nat) → (latest : List Char) → Scan Token
  | 0, latest => return quotedToken outer latest start
  | rounds + 1, latest => do
    let opening ← here
    let close := (← peek).getD outer
    skip 1
    match ← body outer close (rounds + 1) latest with
    | .unterminated latest =>
      return .malformed (close :: latest.reverse) .unterminatedString opening
    | .badEscape latest position =>
      return .malformed (close :: latest.reverse) .invalidEscape position
    | .closed latest =>
      let _ ← run isBlank
      match ← peek with
      | some c =>
        if isQuote c then literals outer start rounds latest
        else return quotedToken outer latest start
      | none => return quotedToken outer latest start

/-- A string, from its first quote on (`ProtoScanner._scan_string`). No more rounds are needed than
there are characters. -/
def string (outer : Char) (start : Position) : Scan Token := do
  literals outer start (← get).rest.length []

end ProtoIdl.Scan
