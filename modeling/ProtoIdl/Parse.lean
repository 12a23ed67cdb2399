import ProtoIdl.Grammar.Body
/-!
# Reading a file

`parse` reads the octets of a file into its declarations.
-/
namespace ProtoIdl

/-- What reading from a reader on gives, and the reader it leaves. -/
def Reading.outcome {α : Type} (step : Reading α) (r : Reader) : Except Failure α × Reader :=
  match step r with
  | .ok a r => (.ok a, r)
  | .error e r => (.error e, r)

/-- Reads a file, with the reader left behind. -/
def parseWith (opts : Grammar.Options) (bytes : List UInt8) (file : String) :
    Except Failure File × Reader :=
  (Grammar.file opts).outcome (Reader.ofBytes bytes file)

/-- Reads a file. Its name shows in positions only. -/
def parse (opts : Grammar.Options) (bytes : List UInt8) (file : String) : Except Failure File :=
  (parseWith opts bytes file).1

end ProtoIdl
