import ProtoIdl.Grammar.Reader
import ProtoIdl.Tree.Declaration
/-!
# Attaching comments

Comments are queued while tokens are read. In front of an element the queue is claimed as a whole;
behind a declaration, or behind an opening curly, at most one comment on the same line is claimed.
-/
namespace ProtoIdl

/-- The comment that a token holds (`_comment`). -/
def Comment.ofToken (t : Token) : Comment :=
  { raw := t.text, extent := ⟨t.position, t.last.getD t.position⟩ }

namespace Grammar

open Reading

/-- Claims the comments in front of the next token (`ProtoParser._collect_comments`). -/
def commentsAhead : Reading (List Comment) := do
  let _ ← peek .plain
  let comments ← pending
  setPending []
  return comments.map Comment.ofToken

/-- Claims the comment that follows `place` on its line (`ProtoParser._parse_inline_comment`).
Comments queued from before it stand inside the declaration that ends there, and are dropped. -/
def commentBehind (place : Position) : Reading (Option Comment) := do
  let comments ← pending
  setPending (comments.dropWhile fun t => t.position.offset < place.offset)
  let _ ← peek .plain
  match ← pending with
  | t :: rest =>
    if t.position.line = place.line then
      setPending rest
      return some (Comment.ofToken t)
    else return none
  | [] => return none

/-- Whether a comment ends above the line on which a declaration starts. -/
def isAbove (start : Position) (c : Comment) : Bool := decide (c.extent.last.line < start.line)

/-- Attaches comments to the declaration read: those above it lead it (`ProtoParser._parse_statement`
behind the declaration). The others, which end on its first line, are strays; they are handed back. -/
def attach (comments : List Comment) (notes : Notes) : Reading (Notes × List Comment) := do
  let start := notes.extent.start
  let inline ← commentBehind notes.extent.last
  return ({ notes with leading := comments.filter (isAbove start), inline },
    comments.filter fun c => !isAbove start c)

end Grammar

end ProtoIdl
