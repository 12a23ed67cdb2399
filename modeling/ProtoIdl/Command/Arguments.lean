import ProtoIdl.Text.Numeric
import ProtoIdl.Text.Quoted
/-!
# Arguments

The command takes paths and flags. A flag may be shortened as long as one flag only starts that way,
and its value may follow an equals sign. All paths stand together: once a flag has followed a path,
a further path is not recognized. Everything behind `--` is a path.
-/
namespace ProtoIdl.Command

/-- The flags. -/
inductive Flag
  | help
  | format
  | permissive
  | keepComments
  | unordered
  | debug
deriving DecidableEq

namespace Flag

/-- The spellings of the flags, in the order in which they are listed (the arguments that `main`
adds). -/
def spellings : List (String × Flag) :=
  [("-h", .help), ("--help", .help), ("--format", .format), ("--permissive", .permissive),
   ("--body-including-comments", .keepComments), ("--unordered", .unordered), ("--debug", .debug)]

/-- All spellings of a flag, as messages name it. -/
def title (f : Flag) : String :=
  String.intercalate "/" ((spellings.filter fun s => s.2 = f).map (·.1))

end Flag

/-- Arguments that cannot be used. -/
inductive UsageError
  | ambiguous (argument : String) (candidates : List String)
  | ignoredValue (flag : Flag) (value : String)
  | missingValue (flag : Flag)
  | invalidChoice (flag : Flag) (value : String) (choices : List String)
  | missingPaths
  | unrecognized (arguments : List String)
  | unorderedOutline
deriving DecidableEq

/-- The wording of a usage error. -/
def UsageError.message : UsageError → String
  | .ambiguous argument candidates =>
    "ambiguous option: " ++ argument ++ " could match " ++ String.intercalate ", " candidates
  | .ignoredValue flag value =>
    "argument " ++ flag.title ++ ": ignored explicit argument " ++ Text.quoted value
  | .missingValue flag => "argument " ++ flag.title ++ ": expected one argument"
  | .invalidChoice flag value choices =>
    "argument " ++ flag.title ++ ": invalid choice: " ++ Text.quoted value ++ " (choose from "
      ++ String.intercalate ", " (choices.map Text.quoted) ++ ")"
  | .missingPaths => "the following arguments are required: paths"
  | .unrecognized arguments => "unrecognized arguments: " ++ String.intercalate " " arguments
  | .unorderedOutline => "--unordered requires --format json"

/-! ## Kinds of arguments -/

/-- What an argument is taken for. -/
inductive ArgumentKind
  | path
  /-- The argument `--`. -/
  | separator
  | flag (f : Flag) (value : Option String)
  /-- It looks like a flag and is none. -/
  | unknown
deriving DecidableEq

/-- The parts around the first equals sign, if there is one. -/
def splitValue (cs : List Char) : List Char × Option (List Char) :=
  match cs.span (· != '=') with
  | (name, _ :: value) => (name, some value)
  | (name, []) => (name, none)

/-- The flags that an argument may be short for, by their spelling, each with the value given. -/
def candidates (argument : List Char) : List (String × Flag × Option String) :=
  match argument with
  | '-' :: '-' :: _ =>
    let (name, value) := splitValue argument
    Flag.spellings.filterMap fun (spelling, f) =>
      if name.isPrefixOf spelling.toList then some (spelling, f, value.map String.ofList) else none
  | _ =>
    Flag.spellings.filterMap fun (spelling, f) =>
      if spelling.toList = argument.take 2 then
        some (spelling, f, some (String.ofList (argument.drop 2)))
      else none

/-- Removes one newline at the end. -/
def chomp (cs : List Char) : List Char := if cs.getLast? = some '\n' then cs.dropLast else cs

/-- A negative number such as `-1`, `-1.5` or `-.5`. One newline may follow. -/
def isNegativeNumber (argument : List Char) : Bool :=
  match chomp argument with
  | '-' :: rest =>
    match rest.dropWhile Text.isDecimal with
    | [] => !rest.isEmpty
    | '.' :: digits => !digits.isEmpty && digits.all Text.isDecimal
    | _ => false
  | _ => false

/-- What an argument in front of `--` is taken for. -/
def classify (argument : String) : Except UsageError ArgumentKind :=
  let chars := argument.toList
  match chars with
  | [] | ['-'] => .ok .path
  | '-' :: _ =>
    match Flag.spellings.lookup argument with
    | some f => .ok (.flag f none)
    | none =>
      let (name, value) := splitValue chars
      match value, Flag.spellings.lookup (String.ofList name) with
      | some value, some f => .ok (.flag f (some (String.ofList value)))
      | _, _ =>
        match candidates chars with
        | [(_, f, value)] => .ok (.flag f value)
        | [] =>
          if isNegativeNumber chars || chars.contains ' ' then .ok .path else .ok .unknown
        | several => .error (.ambiguous argument (several.map (·.1)))
  | _ => .ok .path

/-- Classifies all arguments. -/
def classifyAll : List String → Except UsageError (List (String × ArgumentKind))
  | [] => return []
  | argument :: rest =>
    if argument = "--" then return (argument, .separator) :: rest.map fun path => (path, .path)
    else do
      let kind ← classify argument
      return (argument, kind) :: (← classifyAll rest)

/-! ## Settings -/

/-- How a file is shown. -/
inductive Format
  | json
  | outline
  /-- The value is `--`, which names nothing. Files are shown as in `json`, yet this is not the format
  that the unordered view requires. -/
  | unnamed
deriving DecidableEq

/-- What the command is asked to do (the parameters of `run`). -/
structure Settings where
  paths : List String := []
  format : Format := .json
  permissive : Bool := false
  keepComments : Bool := false
  unordered : Bool := false
  debug : Bool := false
deriving DecidableEq

/-- Whether paths may come, are coming, or have come. -/
inductive Phase
  | before
  | within
  | behind
deriving DecidableEq

/-- What was gathered from the arguments so far. -/
structure Gathered where
  settings : Settings := {}
  phase : Phase := .before
  /-- Arguments that have no use. -/
  extra : List String := []

namespace Gathered

/-- A flag ends the paths. -/
def close (g : Gathered) : Gathered :=
  { g with phase := if g.phase = .before then .before else .behind }

/-- Takes a path. -/
def addPath (g : Gathered) (path : String) : Gathered :=
  match g.phase with
  | .behind => { g with extra := g.extra ++ [path] }
  | _ => { g with phase := .within
                  settings := { g.settings with paths := g.settings.paths ++ [path] } }

/-- Takes an argument that has no use. -/
def addExtra (g : Gathered) (argument : String) : Gathered :=
  { g with extra := g.extra ++ [argument] }

/-- Takes a separator, which is of no use unless paths may come or are coming. -/
def addSeparator (g : Gathered) : Gathered := if g.phase = .behind then g.addExtra "--" else g

/-- Takes a flag without a value. -/
def switch (f : Flag) (g : Gathered) : Gathered :=
  let g := g.close
  { g with settings := match f with
    | .permissive => { g.settings with permissive := true }
    | .keepComments => { g.settings with keepComments := true }
    | .unordered => { g.settings with unordered := true }
    | .debug => { g.settings with debug := true }
    | .help | .format => g.settings }

/-- Takes the format. -/
def setFormat (g : Gathered) (value : String) : Except UsageError Gathered :=
  let g := g.close
  match value with
  | "json" => .ok { g with settings := { g.settings with format := .json } }
  | "outline" => .ok { g with settings := { g.settings with format := .outline } }
  | "--" => .ok { g with settings := { g.settings with format := .unnamed } }
  | _ => .error (.invalidChoice .format value ["json", "outline"])

end Gathered

/-- What arguments ask for. -/
inductive Request
  | help
  | run (settings : Settings)
deriving DecidableEq

/-- The settings that were gathered, if nothing is missing or left over. -/
def Gathered.finish (g : Gathered) : Except UsageError Request :=
  if g.phase = .before then .error .missingPaths
  else if !g.extra.isEmpty then .error (.unrecognized g.extra)
  else if g.settings.unordered && g.settings.format != .json then .error .unorderedOutline
  else .ok (.run g.settings)

/-- What follows `-h` in one argument is a bundle of further short flags. There is none but `h`, so
the first other character starts a value, which `h` does not take; nor does it take an empty one. -/
def bundle (value : String) : Except UsageError Request :=
  let rest := value.toList.dropWhile (· == 'h')
  if rest.isEmpty && value != "" then .ok .help
  else .error (.ignoredValue .help (String.ofList rest))

/-- Whether an argument spells a flag out, behind two hyphens. -/
def isLong (argument : String) : Bool := "--".toList.isPrefixOf argument.toList

/-- Gathers arguments in their order. -/
def gather : List (String × ArgumentKind) → Gathered → Except UsageError Request
  | [], g => g.finish
  | (path, .path) :: rest, g => gather rest (g.addPath path)
  | (_, .separator) :: rest, g => gather rest g.addSeparator
  | (argument, .unknown) :: rest, g => gather rest (g.close.addExtra argument)
  | (argument, .flag .help value) :: _, _ =>
    match value with
    | none => .ok .help
    | some value =>
      if isLong argument then .error (.ignoredValue .help value) else bundle value
  | (_, .flag .format (some value)) :: rest, g => do gather rest (← g.setFormat value)
  | (_, .flag .format none) :: (value, .path) :: rest, g => do gather rest (← g.setFormat value)
  | (_, .flag .format none) :: _, _ => .error (.missingValue .format)
  | (_, .flag f (some value)) :: _, _ => .error (.ignoredValue f value)
  | (_, .flag f none) :: rest, g => gather rest (g.switch f)

/-- Reads the arguments of the command (`parse_args` in `main`, and the check behind it). -/
def readArguments (arguments : List String) : Except UsageError Request := do
  gather (← classifyAll arguments) {}

end ProtoIdl.Command
