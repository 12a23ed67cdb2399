import ProtoIdl.Grammar.Body
/-!
# Readers with an optional keyword

A field may start with `repeated`, and the type of an rpc with `stream`. Both read a token, and put it
back if it is not the keyword. `Reading.optionally` is that choice, and `field_eq` and `rpcType_eq`
give the two readers as the choice and one rest each, so that a property of readers needs a single
rule for the choice. An import has an optional keyword too, but reads on without putting anything
back (`importing_eq`).
-/
namespace ProtoIdl

namespace Reading

/-- Reads the keyword if it comes next. What follows is told its place, if there is one. -/
def optionally {α : Type} (k : Keyword) (f : Option Position → Reading α) : Reading α := do
  let kind ← nextKeyword
  let first ← position
  if kind = .keyword k then f (some first)
  else do
    putBack
    f none

end Reading

namespace Grammar

open Reading

/-- A field behind the keyword, which has been read at `first` if it was there. -/
def fieldBehind (opts : Options) (first : Option Position) : Reading (Noted Field) := do
  let type ← fieldType
  let name ← expectIdent "fieldName"
  expectDelimiter .equals "="
  let number ← fieldNumber
  let settings ← settings opts
  let notes ← finish (first.getD type.2)
  return { item := { type := type.1, name, number, isRepeated := first.isSome, settings }, notes }

/-- The type of an rpc behind the keyword, up to the closing bracket. -/
def rpcTypeBehind (first : Option Position) : Reading RpcType := do
  let type ← messageType
  let last ← position
  expectDelimiter .rightParen ")"
  return { messageType := type.1, isStream := first.isSome, extent := ⟨first.getD type.2, last⟩ }

/-- What the token behind `import` says. -/
def visibilityOf : Kind → Visibility
  | .keyword .kwPublic => .toImporters
  | .keyword .kwWeak => .weak
  | _ => .plain

/-- The rest of an import whose location has been read as a token of this kind. -/
def importBehind (visibility : Visibility) (start : Position) (kind : Kind) :
    Reading (Noted Import) := do
  if kind ≠ .stringLit then reject "weak, public or strLit"
  let location ← text
  return { item := { location, visibility }, notes := ← finish start }

theorem field_eq (opts : Options) : field opts = optionally .kwRepeated (fieldBehind opts) := by
  unfold field optionally
  refine bind_congr fun kind => bind_congr fun first => ?_
  by_cases h : kind = .keyword .kwRepeated
  · simp [h, fieldBehind]
  · simp [h, fieldBehind]

theorem rpcType_eq :
    rpcType = (expectDelimiter .leftParen "(" >>= fun _ => optionally .kwStream rpcTypeBehind) := by
  unfold rpcType optionally
  refine bind_congr fun _ => bind_congr fun kind => bind_congr fun first => ?_
  by_cases h : kind = .keyword .kwStream
  · simp [h, rpcTypeBehind]
  · simp [h, rpcTypeBehind]

theorem importing_eq : importing = (expectKeyword .kwImport >>= fun start =>
    next (.union .keyword .string) >>= fun kind =>
      if visibilityOf kind = .plain then importBehind .plain start kind
      else next .string >>= importBehind (visibilityOf kind) start) := by
  unfold importing
  refine bind_congr fun start => bind_congr fun kind => ?_
  by_cases h : visibilityOf kind = .plain
  · rw [if_pos h]
    exact (if_pos h).trans (congrArg (importBehind · start kind) h)
  · rw [if_neg h]
    exact if_neg h

end Grammar

end ProtoIdl
