import ProtoIdl.Token.Number
import ProtoIdl.Token.Quotation
/-!
# Tokens

`Scan.token` reads the token that starts at the cursor, which stands behind white space and
comments. Words, signs, points and quotes are classified by the mode.
-/
namespace ProtoIdl.Scan

open Text (isDigit isIdentStart isIdentChar)

/-- The kind of a word (the choice behind a word in `ProtoScanner._scan`). A literal wins over a
keyword, a keyword over an identifier. -/
def wordKind (mode : Mode) (word : String) : Kind :=
  if mode.booleans && (word == "true" || word == "false") then .boolLit
  else if mode.numbers && (word == "inf" || word == "nan") then .floatLit
  else if mode.keywords then
    match Keyword.ofWord? word with
    | some k => .keyword k
    | none => .ident
  else .ident

/-- A word, from its first character on (`ProtoScanner._scan_ident`, and the choice behind it). -/
def word (mode : Mode) (start : Position) : Scan Token := do
  let chars ← run isIdentChar
  return .make (wordKind mode (String.ofList chars)) chars start

/-- A character that is a token by itself, read before. -/
def single (c : Char) (start : Position) : Token :=
  match Delimiter.ofChar? c with
  | some d => .make (.delimiter d) [c] start
  | none => .make .illegal [c] start

/-- What follows a sign, in a mode that wants numbers (`ProtoScanner._scan_signed`). A sign is a token
of its own unless a digit, a point with a digit, or a word follows; of the words only `inf` and `nan`
may. -/
def signed (sign : Char) (start : Position) : Scan Token := do
  match ← peek with
  | none => return single sign start
  | some c =>
    if isDigit c then number [sign] start
    else if c = '.' then
      if (← peekSecond).any isDigit then
        skip 1
        fraction [sign, '.'] start
      else return single sign start
    else if isIdentStart c then
      let chars ← run isIdentChar
      let kind := if String.ofList chars == "inf" || String.ofList chars == "nan" then .floatLit
        else .illegal
      return .make kind (sign :: chars) start
    else return single sign start

/-- The token that starts here (`ProtoScanner._scan`). -/
def token (mode : Mode) : Scan Token := do
  let start ← here
  match ← peek with
  | none => return .make .eof [] start
  | some c =>
    if isIdentStart c then word mode start
    else if isDigit c then number [] start
    else if isQuote c && mode.strings then string c start
    else
      skip 1
      if mode.numbers && (c == '-' || c == '+') then signed c start
      else if mode.numbers && c == '.' then
        if (← peek).any isDigit then fraction ['.'] start
        else return single c start
      else return single c start

end ProtoIdl.Scan
