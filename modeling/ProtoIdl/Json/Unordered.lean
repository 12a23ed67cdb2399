import ProtoIdl.Json.Tree
import ProtoIdl.View.Unordered
/-!
# The JSON form of the unordered view

A body is an object with one list for each kind of declaration, as `to_json` has them from the fields of
`ProtoBody`, `MessageBody`, `EnumBody` and `ServiceBody`.
-/
namespace ProtoIdl

open View

instance : ToJson (Noted Import) := ⟨fun i => Json.noted (Json.importing i.item) i.notes⟩

instance : ToJson (Noted Package) := ⟨fun p => Json.noted (Json.package p.item) p.notes⟩

instance : ToJson (Noted OptionSetting) := ⟨fun o => Json.noted (Json.option o.item) o.notes⟩

instance : ToJson (Noted Field) := ⟨fun f => Json.noted (Json.field f.item) f.notes⟩

instance : ToJson (Noted MapField) := ⟨fun f => Json.noted (Json.mapField f.item) f.notes⟩

instance : ToJson (Noted EnumField) := ⟨fun f => Json.noted (Json.enumField f.item) f.notes⟩

instance : ToJson (Noted Reserved) := ⟨fun r => Json.noted (Json.reserved r.item) r.notes⟩

namespace Json

/-- A block whose head is made by `head`. -/
def blockOf {α : Type} (head : α → Head) (b : Block α) : Json :=
  element (.block (head b.head) b.body b.behindCurly b.notes)

/-- The JSON form of an enum. -/
def enumView (e : EnumView) : Json :=
  let body : Json := .object
    [("options", json e.options), ("enum_fields", json e.fields), ("reserves", json e.reserves),
     ("comments", json e.comments)]
  blocked [("name", json e.name), ("body", body)] e.behindCurly e.notes

/-- The JSON form of a service. -/
def serviceView (s : ServiceView) : Json :=
  let body : Json := .object
    [("options", json s.options), ("rpcs", .array (s.rpcs.map (blockOf .rpc))),
     ("comments", json s.comments)]
  blocked [("name", json s.name), ("body", body)] s.behindCurly s.notes

mutual
/-- The JSON form of a message. -/
def messageView : MessageView → Json
  | { name, fields, enums, messages, options, oneofs, maps, reserves, extensions, comments,
      behindCurly, notes } =>
    let body : Json := .object
      [("fields", json fields), ("enums", .array (enums.map enumView)),
       ("messages", .array (messageViews messages)), ("options", json options),
       ("oneofs", .array (oneofs.map (blockOf .oneof))), ("maps", json maps),
       ("reserves", json reserves), ("extends", .array (extensions.map (blockOf .extend))),
       ("comments", json comments)]
    blocked [("name", json name), ("body", body)] behindCurly notes

/-- The JSON forms of messages. -/
def messageViews : List MessageView → List Json
  | [] => []
  | m :: rest => messageView m :: messageViews rest
end

end Json

instance : ToJson EnumView := ⟨Json.enumView⟩

instance : ToJson ServiceView := ⟨Json.serviceView⟩

instance : ToJson MessageView := ⟨Json.messageView⟩

instance : ToJson FileView := ⟨fun f =>
  let body : Json := .object
    [("imports", json f.imports), ("packages", json f.packages), ("options", json f.options),
     ("messages", .array (Json.messageViews f.messages)), ("enums", json f.enums),
     ("services", json f.services), ("extends", .array (f.extensions.map (Json.blockOf .extend))),
     ("comments", json f.comments)]
  .object [("syntax", json f.version), ("body", body)]⟩

end ProtoIdl
