/-!
# Literals of a validator

A validator takes its value between curly brackets: names with values, which may be groups again or
lists of texts. The tree of a source file keeps such a literal as text only. The text leaves out
the white space, so it does not always tell two literals apart.
-/
namespace ProtoIdl

mutual
/-- A value between curly brackets, read for a validator. -/
inductive Literal
  | constant (text : String)
  | list (items : List String)
  | group (entries : Entries)

/-- The entries of a group; `comma` tells whether a comma stands behind the entry. -/
inductive Entries
  | nil
  | cons (name : String) (value : Literal) (comma : Bool) (rest : Entries)
end

/-- Puts an entry behind the others. -/
def Entries.push (name : String) (value : Literal) (comma : Bool) : Entries → Entries
  | .nil => .cons name value comma .nil
  | .cons n v c rest => .cons n v c (rest.push name value comma)

mutual
/-- The text of a literal, without white space but for the blanks between the items of a list
(`ProtoParser._parse_validator_value`). -/
def Literal.render : Literal → String
  | .constant text => text
  | .list items => "[" ++ String.intercalate " " items ++ "]"
  | .group entries => "\x7b" ++ entries.render ++ "\x7d"

/-- The text of entries, one behind the other (the parts that `ProtoParser._parse_validator_constant`
joins). -/
def Entries.render : Entries → String
  | .nil => ""
  | .cons name value comma rest =>
    name ++ ":" ++ value.render ++ (if comma then "," else "") ++ rest.render
end

end ProtoIdl
