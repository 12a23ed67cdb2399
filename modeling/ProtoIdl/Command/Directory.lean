import ProtoIdl.Command.Path
import ProtoIdl.Text.Quoted
/-!
# Files and directories

An `Entry` is a file or a directory with its entries. `FileTree.find` follows a path through a tree
of them, and `Entry.sources` lists what below an entry is named like a source file, whatever it is.
-/
namespace ProtoIdl.Command

/-- A reason for which the system refuses a path: its number and its wording (`OSError`). -/
structure AccessFault where
  number : Nat
  word : String
deriving DecidableEq

namespace AccessFault

def noSuchFile : AccessFault := ⟨2, "No such file or directory"⟩

def notADirectory : AccessFault := ⟨20, "Not a directory"⟩

def isADirectory : AccessFault := ⟨21, "Is a directory"⟩

def nameTooLong : AccessFault := ⟨36, "File name too long"⟩

/-- Whether a path with this fault passes for one without a directory, in the test for one (`is_dir`
of a path): nothing is there, nothing can be below, or its links lead nowhere. -/
def isAbsence (f : AccessFault) : Bool := [2, 9, 20, 40].contains f.number

/-- A fault at a path as it is reported. -/
def message (f : AccessFault) (path : String) : String :=
  "[Errno " ++ toString f.number ++ "] " ++ f.word ++ ": " ++ Text.quoted path

end AccessFault

/-- Octets of a file, a file that is there but cannot be read, or named entries of a directory. -/
inductive Entry
  | file (bytes : List UInt8)
  | unreadable (fault : AccessFault)
  | directory (entries : List (String × Entry))

namespace Entry

/-- The empty directory. -/
def empty : Entry := .directory []

/-- The entry of a directory with the given name. -/
def child? (name : String) (entries : List (String × Entry)) : Option Entry :=
  entries.lookup name

/-- What is wrong with a name that no entry has: no entry can have one of more than 255 octets. -/
def missing (name : String) : AccessFault :=
  if 255 < name.utf8ByteSize then .nameTooLong else .noSuchFile

/-- Follows names from a directory on. `above` holds the directories passed, the nearest first; above
the topmost one there is none, so `..` stays there. -/
def follow : (above : List Entry) → Entry → (names : List String) → Except AccessFault Entry
  | _, here, [] => .ok here
  | above, .directory entries, name :: rest =>
    if name = ".." then
      match above with
      | [] => follow [] (.directory entries) rest
      | parent :: above => follow above parent rest
    else match child? name entries with
      | none => .error (missing name)
      | some next => follow (.directory entries :: above) next rest
  | _, _, _ :: _ => .error .notADirectory

/-- The octets of a file. -/
def read : Entry → Except AccessFault (List UInt8)
  | .file bytes => .ok bytes
  | .unreadable fault => .error fault
  | .directory _ => .error .isADirectory

/-- Names that end in `.proto`. -/
def isSourceName (name : String) : Bool := ".proto".toList.isSuffixOf name.toList

mutual
/-- The entries below an entry that are named like source files, each with its path. -/
def sourcesBelow (p : Path) : Entry → List (String × Entry)
  | .file _ | .unreadable _ => []
  | .directory entries => sourcesAmong p entries

/-- Those among entries and below them. -/
def sourcesAmong (p : Path) : List (String × Entry) → List (String × Entry)
  | [] => []
  | (name, e) :: rest =>
    let here := if isSourceName name then [((p.child name).render, e)] else []
    here ++ sourcesBelow (p.child name) e ++ sourcesAmong p rest
end

/-- Puts an entry in front of the first whose path does not come before its own. Paths are compared
by code points. -/
def insertByPath (x : String × Entry) : List (String × Entry) → List (String × Entry)
  | [] => [x]
  | y :: rest => if y.1 < x.1 then y :: insertByPath x rest else x :: y :: rest

/-- Entries in the order of their paths. -/
def sortByPath (entries : List (String × Entry)) : List (String × Entry) :=
  entries.foldr insertByPath []

/-- The entries below a directory that are named like source files, in the order of their paths (the
sorted `rglob` of `_find_files`). -/
def sources (p : Path) (e : Entry) : List (String × Entry) := sortByPath (sourcesBelow p e)

/-- Replaces or adds an entry. -/
def put (name : String) (e : Entry) : List (String × Entry) → List (String × Entry)
  | [] => [(name, e)]
  | (n, old) :: rest => if n = name then (n, e) :: rest else (n, old) :: put name e rest

/-- Puts an entry at the end of a list of names, and makes the directories on the way. -/
def insert (e : Entry) : (names : List String) → Entry → Entry
  | [], _ => e
  | name :: rest, .directory entries =>
    .directory (put name (insert e rest ((child? name entries).getD empty)) entries)
  | name :: rest, _ => .directory [(name, insert e rest empty)]

/-- Makes a directory at the end of a list of names, unless it exists. -/
def makeDirectory : (names : List String) → Entry → Entry
  | [], e => e
  | name :: rest, .directory entries =>
    .directory (put name (makeDirectory rest ((child? name entries).getD empty)) entries)
  | name :: rest, _ => .directory [(name, makeDirectory rest empty)]

end Entry

/-- A tree of entries from its root on, and the names that lead to the current directory. -/
structure FileTree where
  root : Entry
  here : List String := []

/-- What a path names. A path with a root is followed from the root of the tree, any other one from the
current directory. -/
def FileTree.find (t : FileTree) (p : Path) : Except AccessFault Entry :=
  t.root.follow [] (if p.root = "" then t.here ++ p.names else p.names)

end ProtoIdl.Command
