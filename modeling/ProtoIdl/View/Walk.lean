import ProtoIdl.Tree.Declaration
/-!
# Walking a tree

A walk visits every declaration and every comment: a declaration first, then the elements of its
body, then its own comments. Below a declaration of a skipped kind nothing is visited.
-/
namespace ProtoIdl.View

/-- The kinds of what a walk visits (the methods of `Visitor`). -/
inductive NodeKind
  | comment
  | version
  | importing
  | package
  | option
  | field
  | mapField
  | oneof
  | enumField
  | enum
  | message
  | extend
  | service
  | rpc
  | reserved
deriving DecidableEq

/-- The names of the kinds. -/
def NodeKind.name : NodeKind → String
  | .comment => "comment"
  | .version => "syntax"
  | .importing => "import"
  | .package => "package"
  | .option => "option"
  | .field => "field"
  | .mapField => "map_field"
  | .oneof => "oneof"
  | .enumField => "enum_field"
  | .enum => "enum"
  | .message => "message"
  | .extend => "extend"
  | .service => "service"
  | .rpc => "rpc"
  | .reserved => "reserved"

/-- Every kind. -/
def NodeKind.all : List NodeKind :=
  [.comment, .version, .importing, .package, .option, .field, .mapField, .oneof, .enumField, .enum,
   .message, .extend, .service, .rpc, .reserved]

/-- One visit: the kind of what is visited, and what it is called. -/
structure Visit where
  kind : NodeKind
  name : String
deriving DecidableEq

/-- The visit of a comment shows its text. -/
def visitComment (c : Comment) : Visit := ⟨.comment, c.raw⟩

/-- The visit of a statement. -/
def visitStatement : Statement → Visit
  | .version v => ⟨.version, v.text⟩
  | .importing i => ⟨.importing, i.location⟩
  | .package p => ⟨.package, p.name⟩
  | .option o => ⟨.option, o.name⟩
  | .field f => ⟨.field, f.name⟩
  | .mapField f => ⟨.mapField, f.name⟩
  | .enumField f => ⟨.enumField, f.name⟩
  | .reserved _ => ⟨.reserved, ""⟩

/-- The visit of a block, before its body. -/
def visitHead : Head → Visit
  | .oneof name => ⟨.oneof, name⟩
  | .enum name => ⟨.enum, name⟩
  | .extend type => ⟨.extend, type⟩
  | .message name => ⟨.message, name⟩
  | .service name => ⟨.service, name⟩
  | .rpc r => ⟨.rpc, r.name⟩

/-- The visits of the comments around a declaration (`_accept_comments`). -/
def visitNotes (notes : Notes) : List Visit := (notes.leading ++ notes.inline.toList).map visitComment

/-- The visit of a declaration and, unless its kind is skipped, those below it. -/
def visitUnless (skip : NodeKind → Bool) (v : Visit) (below : List Visit) : List Visit :=
  v :: if skip v.kind then [] else below

/-- The visits of the version of a file. -/
def visitVersion (skip : NodeKind → Bool) (version : Option (Noted Version)) : List Visit :=
  version.toList.flatMap fun v =>
    visitUnless skip (visitStatement (.version v.item)) (visitNotes v.notes)

mutual
/-- The visits of an element and of all below it (`accept` of every node, with `_accept_body`). -/
def walk (skip : NodeKind → Bool) : Element → List Visit
  | .comment c => [visitComment c]
  | .statement s notes => visitUnless skip (visitStatement s) (visitNotes notes)
  | .block head body curly notes =>
    visitUnless skip (visitHead head)
      (walkAll skip body ++ visitNotes notes ++ curly.toList.map visitComment)
  | .fragment _ => []
  | .file version body => visitVersion skip version ++ walkAll skip body

/-- The visits of elements in their order. -/
def walkAll (skip : NodeKind → Bool) : List Element → List Visit
  | [] => []
  | e :: rest => walk skip e ++ walkAll skip rest
end

/-- The visits of a file (`ProtoFile.accept`). -/
def walkFile (skip : NodeKind → Bool) (f : File) : List Visit := walk skip (.file f.version f.body)

/-- How often a kind is visited in a walk that skips nothing (`DeclarationCounter`). -/
def count (kind : NodeKind) (f : File) : Nat :=
  (walkFile (fun _ => false) f).countP fun v => v.kind == kind

/-- The numbers of messages, enums, services and rpcs of a file, nested ones included (`_summary`). -/
def summary (f : File) : String :=
  String.intercalate ", " <|
    [NodeKind.message, .enum, .service, .rpc].map fun kind =>
      toString (count kind f) ++ " " ++ kind.name ++ "(s)"

end ProtoIdl.View
