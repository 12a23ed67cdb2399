import ProtoIdl.Tree.Declaration
/-!
# Outlines

An outline has a title and one line for each declaration, indented by two blanks for each block
around it. Comments are left out; a fragment or a file among the elements has no line.
-/
namespace ProtoIdl.View

/-- A tree with something of the named class, which has no line, among its elements (the error of
`_label`). -/
structure Unsupported where
  className : String
deriving DecidableEq

/-- A missing outline as it is reported. -/
def Unsupported.message (u : Unsupported) : String := "unsupported node type " ++ u.className

/-- Settings between brackets, or nothing if there are none (`_options_suffix`). -/
def settingsLabel (settings : List Setting) : String :=
  if settings.isEmpty then ""
  else " [" ++ String.intercalate ", " (settings.map fun s => s.name ++ " = " ++ s.constant) ++ "]"

/-- The line of a statement (`_label`). -/
def statementLabel : Statement → String
  | .version v => "syntax \"" ++ v.text ++ "\""
  | .importing i =>
    if i.visibility = .plain then "import " ++ i.location
    else "import " ++ i.visibility.word ++ " " ++ i.location
  | .package p => "package " ++ p.name
  | .option o =>
    "option " ++ o.name ++ " = " ++ (match o.endpoint with
      | some e => e.constant
      | none => o.constant)
  | .field f =>
    (if f.isRepeated then "repeated " else "") ++ f.type ++ " " ++ f.name ++ " = " ++ f.number
      ++ settingsLabel f.settings
  | .mapField f =>
    "map<" ++ f.keyType ++ ", " ++ f.type ++ "> " ++ f.name ++ " = " ++ f.number
      ++ settingsLabel f.settings
  | .enumField f => f.name ++ " = " ++ f.number ++ settingsLabel f.settings
  | .reserved r =>
    "reserved " ++ String.intercalate ", "
      (if r.names.isEmpty then r.ranges.map (·.render) else r.names)

/-- A type between parentheses (`_rpc_type`). -/
def rpcTypeLabel (t : RpcType) : String :=
  (if t.isStream then "(stream " else "(") ++ t.messageType ++ ")"

/-- The line of a block (`_label`). -/
def headLabel : Head → String
  | .oneof name => "oneof " ++ name
  | .enum name => "enum " ++ name
  | .extend type => "extend " ++ type
  | .message name => "message " ++ name
  | .service name => "service " ++ name
  | .rpc r =>
    "rpc " ++ r.name ++ rpcTypeLabel r.request ++ " returns " ++ rpcTypeLabel r.response

/-- A line of an outline, by its depth. -/
structure Line where
  depth : Nat
  label : String
deriving DecidableEq

/-- A line as it is written (the loop of the outline template). -/
def Line.render (l : Line) : String :=
  String.ofList (List.replicate (2 * l.depth) ' ') ++ l.label ++ "\n"

mutual
/-- The line of an element at a depth, followed by the lines of its body. -/
def outlineOf (depth : Nat) : Element → Except Unsupported (List Line)
  | .comment _ => return []
  | .statement s _ => return [⟨depth, statementLabel s⟩]
  | .block head body _ _ => return ⟨depth, headLabel head⟩ :: (← outlineAll (depth + 1) body)
  | .fragment f => throw ⟨f.className⟩
  | .file version body => throw ⟨(Element.file version body).className⟩

/-- The lines of elements at a depth (`_outline_nodes`). -/
def outlineAll (depth : Nat) : List Element → Except Unsupported (List Line)
  | [] => return []
  | e :: rest => return (← outlineOf depth e) ++ (← outlineAll depth rest)
end

/-- The outline of a file (`generate_outline`). A text without a title is called `<input>`. -/
def outline (f : File) (title : String) : Except Unsupported String := do
  let lines ← outlineAll 0 f.elements
  return "# " ++ (if title = "" then "<input>" else title) ++ "\n"
    ++ String.join (lines.map (·.render))

end ProtoIdl.View
