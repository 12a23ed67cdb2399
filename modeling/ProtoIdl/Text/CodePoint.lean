/-!
# Classes of characters

A class is a list of code point ranges above ASCII next to a rule for the ASCII characters. This
file holds what the classes share; the tables have modules of their own.
-/
namespace ProtoIdl.Text

/-- Ranges of code points, both ends included, in increasing order. -/
abbrev Ranges := List (Nat × Nat)

/-- Whether a code point lies in one of the ranges. -/
def Ranges.contains (ranges : Ranges) (point : Nat) : Bool :=
  ranges.any fun (low, high) => decide (low ≤ point) && decide (point ≤ high)

/-- Whether a character is one of the 128 ASCII characters. -/
def isAscii (c : Char) : Bool := decide (c.toNat < 128)

/-- A decimal digit `0` to `9` (`_is_digit`). -/
def isDigit (c : Char) : Bool := decide ('0' ≤ c) && decide (c ≤ '9')

/-- An octal digit `0` to `7` (`_OCTAL_DIGITS`). -/
def isOctalDigit (c : Char) : Bool := decide ('0' ≤ c) && decide (c ≤ '7')

/-- A hexadecimal digit, in either case (`_HEX_DIGITS`). -/
def isHexDigit (c : Char) : Bool :=
  isDigit c || decide ('a' ≤ c) && decide (c ≤ 'f') || decide ('A' ≤ c) && decide (c ≤ 'F')

/-- An ASCII letter, in either case. -/
def isAsciiLetter (c : Char) : Bool :=
  decide ('a' ≤ c) && decide (c ≤ 'z') || decide ('A' ≤ c) && decide (c ≤ 'Z')

end ProtoIdl.Text
