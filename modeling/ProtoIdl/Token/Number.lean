import ProtoIdl.Text.Identifier
import ProtoIdl.Token.Basic
import ProtoIdl.Token.Scan
/-!
# Numbers

An integer is `0`, a decimal number without leading zero, an octal number with one, or a hexadecimal
number behind `0x`. A float has a point, an exponent or both. A number must not run into a letter, a
digit or a point: then all of it up to the next other character is one malformed number.
-/
namespace ProtoIdl.Scan

open Text (isDigit isHexDigit isIdentChar)

/-- A character that may belong to a number or run into one. -/
def isNumberTail (c : Char) : Bool := isIdentChar c || c == '.'

/-- A malformed number, together with what it runs into (`ProtoScanner._bad_number`). -/
def malformedNumber (chars : List Char) (start : Position) : Scan Token := do
  let chars := chars ++ (← run isNumberTail)
  return .malformed chars (.invalidNumber (String.ofList chars)) start

/-- A number that is complete if nothing runs into it (`ProtoScanner._finish_number`). -/
def completeNumber (kind : Kind) (chars : List Char) (start : Position) : Scan Token := do
  match ← peek with
  | some c => if isNumberTail c then malformedNumber chars start else return .make kind chars start
  | none => return .make kind chars start

/-- Removes the signs in front. -/
def unsigned (chars : List Char) : List Char := chars.dropWhile fun c => c == '+' || c == '-'

/-- A leading zero makes a number of several digits octal, so neither 8 nor 9 is a digit of it (the
last check of `ProtoScanner._scan_number`). -/
def isBadOctal (digits : List Char) : Bool :=
  match digits with
  | '0' :: rest => rest.any fun c => c == '8' || c == '9'
  | _ => false

/-- What may follow the digits: an exponent (`ProtoScanner._scan_number` from its exponent on). -/
def exponent (chars : List Char) (isFloat : Bool) (start : Position) : Scan Token := do
  let next ← peek
  if next = some 'e' ∨ next = some 'E' then
    skip 1
    let chars := chars ++ next.toList
    let sign ← upTo 1 fun c => c == '+' || c == '-'
    let digits ← run isDigit
    if digits.isEmpty then malformedNumber (chars ++ sign) start
    else completeNumber .floatLit (chars ++ sign ++ digits) start
  else if isFloat then completeNumber .floatLit chars start
  else if isBadOctal (unsigned chars) then malformedNumber chars start
  else completeNumber .intLit chars start

/-- A number whose point is behind us: `chars` ends with it (`ProtoScanner._scan_number` with
`fraction`). -/
def fraction (chars : List Char) (start : Position) : Scan Token := do
  let digits ← run isDigit
  exponent (chars ++ digits) true start

/-- A decimal or octal number, or a float; `chars` holds its sign and perhaps a first zero
(`ProtoScanner._scan_number` behind its first branch). -/
def decimal (chars : List Char) (start : Position) : Scan Token := do
  let digits ← run isDigit
  let chars := chars ++ digits
  if (← peek) = some '.' then
    skip 1
    fraction (chars ++ ['.']) start
  else exponent chars false start

/-- A hexadecimal number; `chars` ends with its `x` (the first branch of `ProtoScanner._scan_number`). -/
def hexadecimal (chars : List Char) (start : Position) : Scan Token := do
  let digits ← run isHexDigit
  if digits.isEmpty then malformedNumber chars start
  else completeNumber .intLit (chars ++ digits) start

/-- A number whose first digit comes next; `sign` was read before (`ProtoScanner._scan_number`). -/
def number (sign : List Char) (start : Position) : Scan Token := do
  if (← peek) = some '0' then
    skip 1
    let next ← peek
    if next = some 'x' ∨ next = some 'X' then
      skip 1
      hexadecimal (sign ++ '0' :: next.toList) start
    else decimal (sign ++ ['0']) start
  else decimal sign start

end ProtoIdl.Scan
