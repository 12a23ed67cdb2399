import ProtoIdl.Text.Quoted
/-!
# JSON text

A JSON value keeps the order of its members. It is written over several lines, two blanks for each
level, in ASCII only: other characters are escaped as UTF-16 units.
-/
namespace ProtoIdl

/-- A JSON value of the kinds that trees need. -/
inductive Json
  | null
  | bool (b : Bool)
  | int (i : Int)
  | string (s : String)
  | array (items : List Json)
  | object (members : List (String × Json))

namespace Json

/-- The escape of one UTF-16 unit. -/
def escapeUnit (unit : Nat) : List Char := '\\' :: 'u' :: Text.hex 4 unit

/-- A character inside a JSON string. -/
def escapeChar (c : Char) : List Char :=
  if c = '"' then ['\\', '"']
  else if c = '\\' then ['\\', '\\']
  else if c = '\n' then ['\\', 'n']
  else if c = '\r' then ['\\', 'r']
  else if c = '\t' then ['\\', 't']
  else if c.toNat = 0x08 then ['\\', 'b']
  else if c.toNat = 0x0C then ['\\', 'f']
  else if 0x20 ≤ c.toNat ∧ c.toNat < 0x7F then [c]
  else if c.toNat < 0x10000 then escapeUnit c.toNat
  else
    let point := c.toNat - 0x10000
    escapeUnit (0xD800 + point / 0x400) ++ escapeUnit (0xDC00 + point % 0x400)

/-- A JSON string with its quotes. -/
def renderString (s : String) : List Char := '"' :: s.toList.flatMap escapeChar ++ ['"']

/-- The start of a line at a level. -/
def newline (level : Nat) : List Char := '\n' :: List.replicate (2 * level) ' '

/-- What stands between the name of a member and its value. -/
def colon : List Char := [':', ' ']

mutual
/-- The characters of a value that starts at a level. -/
def renderAt (level : Nat) : Json → List Char
  | .null => "null".toList
  | .bool b => if b then "true".toList else "false".toList
  | .int i => (toString i).toList
  | .string s => renderString s
  | .array [] => ['[', ']']
  | .array (item :: items) =>
    '[' :: newline (level + 1) ++ renderAt (level + 1) item ++ renderItems (level + 1) items
      ++ newline level ++ [']']
  | .object [] => ['\x7b', '\x7d']
  | .object ((name, value) :: members) =>
    '\x7b' :: newline (level + 1) ++ renderString name ++ colon ++ renderAt (level + 1) value
      ++ renderMembers (level + 1) members ++ newline level ++ ['\x7d']

/-- The items of an array behind the first. -/
def renderItems (level : Nat) : List Json → List Char
  | [] => []
  | item :: items => ',' :: newline level ++ renderAt level item ++ renderItems level items

/-- The members of an object behind the first. -/
def renderMembers (level : Nat) : List (String × Json) → List Char
  | [] => []
  | (name, value) :: members =>
    ',' :: newline level ++ renderString name ++ colon ++ renderAt level value
      ++ renderMembers level members
end

/-- The text of a value (`to_json`). -/
def render (j : Json) : String := String.ofList (j.renderAt 0)

end Json

/-- Types whose values have a JSON form. -/
class ToJson (α : Type) where
  /-- The JSON form of a value. -/
  json : α → Json

export ToJson (json)

instance : ToJson String := ⟨.string⟩
instance : ToJson Bool := ⟨.bool⟩
instance : ToJson Int := ⟨.int⟩

instance {α : Type} [ToJson α] : ToJson (List α) := ⟨fun items => .array (items.map json)⟩

instance {α : Type} [ToJson α] : ToJson (Option α) := ⟨fun
  | some a => json a
  | none => .null⟩

end ProtoIdl
