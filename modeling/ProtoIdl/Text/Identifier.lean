import ProtoIdl.Text.Letter
import ProtoIdl.Text.Numeric
/-!
# Identifiers

An identifier starts with a letter or an underscore and goes on with letters, numeric characters
and underscores.
-/
namespace ProtoIdl.Text

/-- A character that may start an identifier (`_is_ident_start`). -/
def isIdentStart (c : Char) : Bool := isLetter c || c == '_'

/-- A character that may follow in an identifier (`_is_ident_char`). -/
def isIdentChar (c : Char) : Bool := isLetter c || isNumeric c || c == '_'

/-- What starts an identifier may also follow in one. -/
theorem isIdentChar_of_isIdentStart {c : Char} (h : isIdentStart c = true) :
    isIdentChar c = true := by
  simp only [isIdentStart, isIdentChar, Bool.or_eq_true] at *
  grind

end ProtoIdl.Text
