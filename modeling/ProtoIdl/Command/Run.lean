import ProtoIdl.Command.Arguments
import ProtoIdl.Command.Directory
import ProtoIdl.Json.Unordered
import ProtoIdl.Parse
import ProtoIdl.Token.Log
import ProtoIdl.View.Outline
import ProtoIdl.View.Walk
/-!
# Running the command

The command reads the files it is given one after the other and prints each. The first that cannot
be read or is malformed ends the run; what was printed before stays.
-/
namespace ProtoIdl.Command

/-- What a run prints, and the code it ends with. -/
structure Outcome where
  code : Nat := 0
  out : String := ""
  err : String := ""
  /-- The fault that ended the run, if it was not handled. What the system prints about it is not told. -/
  unhandled : Option String := none
deriving DecidableEq

namespace Outcome

/-- Prints something before the rest of a run. -/
def after (out err : String) (o : Outcome) : Outcome :=
  { o with out := out ++ o.out, err := err ++ o.err }

end Outcome

/-- A line. -/
def line (text : String) : String := text ++ "\n"

/-- What a path names, or why this cannot be told. -/
abbrev Disk := String → Except AccessFault Entry

/-- A tree as a disk: names are followed in it. -/
def FileTree.disk (t : FileTree) : Disk := fun name => t.find (Path.ofString name)

/-- What is read under a name. -/
abbrev Input := String × Except AccessFault (List UInt8)

/-- The files that a path stands for: itself, or what a directory holds (one turn of the loop of
`_find_files`). It has to be told first whether it is a directory. Where that fails for another reason
than absence, the fault is not handled. -/
def expand (disk : Disk) (path : String) : Except String (List Input) :=
  let p := Path.ofString path
  match disk p.render with
  | .ok (.directory entries) =>
    .ok ((Entry.sources p (.directory entries)).map fun (name, e) => (name, e.read))
  | .ok e => .ok [(p.render, e.read)]
  | .error fault =>
    if fault.isAbsence then .ok [(p.render, .error fault)] else .error (fault.message p.render)

/-- The files that all paths stand for (`_find_files`). -/
def findFiles (disk : Disk) : List String → Except String (List Input)
  | [] => .ok []
  | path :: rest => do return (← expand disk path) ++ (← findFiles disk rest)

/-- The lines of a log as they are printed. -/
def printedLog (logger : String) (log : List LogLine) : String :=
  String.join (log.map fun l => line (l.severity.name ++ " " ++ logger ++ ": " ++ l.text))

/-- What ends a run at a file. -/
def fatal (text : String) : String := line ("FATAL: " ++ text)

/-- Prints a file that was read. -/
def printed (s : Settings) (name : String) (f : File) : Except String String :=
  match s.format with
  | .outline => (View.outline f name).mapError (·.message)
  | .json | .unnamed =>
    if s.unordered then
      match View.ofFile f with
      | .ok view => .ok (line (json view).render)
      | .error m => .error m.message
    else .ok (line (json f).render)

/-- The options of the grammar. -/
def Settings.options (s : Settings) : Grammar.Options :=
  { permissive := s.permissive, keepComments := s.keepComments }

/-- The line that reports how many files were found. -/
def foundLine (n : Nat) : String := line ("Found " ++ toString n ++ " proto file(s)")

/-- The line that reports a file. -/
def parsedLine (name : String) (f : File) : String :=
  line ("  Parsed " ++ name ++ ": " ++ View.summary f)

/-- Prints what was parsed under a name, behind the log. A file without an unordered view is reported; one
without an outline is found out behind the line about it, and not handled. -/
def printParsed (s : Settings) (name log : String) : Except Failure File → Outcome
  | .error failure => { code := 1, err := log ++ fatal failure.message }
  | .ok f =>
    match printed s name f with
    | .error text =>
      if s.format = .outline then { code := 1, err := log ++ parsedLine name f, unhandled := some text }
      else { code := 1, err := log ++ fatal text }
    | .ok text => { out := text, err := log ++ parsedLine name f }

/-- Reads and prints a file (one turn of the loop of `run`, with `parse_proto_file`). -/
def processFile (s : Settings) (name : String) (content : Except AccessFault (List UInt8)) : Outcome :=
  let opening :=
    if s.debug then printedLog "protoparser.parser.proto_parser" [⟨.debug, "Parsing " ++ name⟩]
    else ""
  match content with
  | .error fault => { code := 1, err := opening ++ fatal (fault.message name) }
  | .ok bytes =>
    let run := parseWith s.options bytes name
    let log :=
      if s.debug then opening ++ printedLog "protoparser.parser.proto_lexer" run.2.stream.log
      else opening
    printParsed s name log run.1

/-- Reads and prints files until one fails (the loop of `run`). -/
def process (s : Settings) : List Input → Outcome
  | [] => {}
  | (name, content) :: rest =>
    let o := processFile s name content
    if o.code = 0 then (process s rest).after o.out o.err else o

/-- Runs the command with its settings (`run`). All files are looked for before one is read, and only
what is wrong with reading one is reported. -/
def runSettings (disk : Disk) (s : Settings) : Outcome :=
  match findFiles disk s.paths with
  | .error text => { code := 1, unhandled := some text }
  | .ok [] =>
    { code := 1
      err := line ("No .proto files found under " ++ String.intercalate ", " s.paths) }
  | .ok files =>
    (process s files).after "" (foundLine files.length)

/-- The short description of the arguments. -/
def usage : String :=
  "usage: protoparser [-h] [--format FORMAT] [--permissive] [--body-including-comments]"
    ++ " [--unordered] [--debug] paths [paths ...]"

/-- Runs the command (`main`). -/
def run (disk : Disk) (arguments : List String) : Outcome :=
  match readArguments arguments with
  | .error e => { code := 2, err := line ("protoparser: error: " ++ e.message) }
  | .ok .help => { out := line usage }
  | .ok (.run s) => runSettings disk s

end ProtoIdl.Command
