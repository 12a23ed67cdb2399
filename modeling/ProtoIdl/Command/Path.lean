/-!
# Paths

A path is a list of names. Reading one drops empty names and `.`, so two spellings of a path are
written alike; `..` stays, since it cannot be resolved without looking at the files.
-/
namespace ProtoIdl.Command

/-- A path, relative unless `root` is given (`Path` in `_find_files`). -/
structure Path where
  /-- The slashes in front of an absolute path. -/
  root : String := ""
  names : List String := []
deriving DecidableEq

namespace Path

/-- Splits at slashes. There is always a first name, which may be empty. -/
def split : List Char → List (List Char)
  | [] => [[]]
  | c :: rest =>
    if c = '/' then [] :: split rest
    else match split rest with
      | [] => [[c]]
      | name :: names => (c :: name) :: names

/-- The slashes in front: two are kept as two, and any other number as one. -/
def rootOf (chars : List Char) : String :=
  match (chars.takeWhile (· == '/')).length with
  | 0 => ""
  | 2 => "//"
  | _ => "/"

/-- Reads a path. -/
def ofString (s : String) : Path where
  root := rootOf s.toList
  names := ((split s.toList).map String.ofList).filter fun name => name ≠ "" && name ≠ "."

/-- The written form; the path without names is `.` or its root. -/
def render (p : Path) : String :=
  if p.root = "" && p.names.isEmpty then "." else p.root ++ String.intercalate "/" p.names

/-- The path of an entry of a directory. -/
def child (p : Path) (name : String) : Path := { p with names := p.names ++ [name] }

end Path

end ProtoIdl.Command
