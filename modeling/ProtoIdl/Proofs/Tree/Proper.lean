import ProtoIdl.Grammar.Body
import ProtoIdl.View.Unordered
/-!
# Trees whose bodies hold what they may

`bodyHolds` is the table of the grammar: which declarations may stand in which kind of body.
`Element.Proper` says of an element that it may stand in a body, and that so may everything below
it. Such a tree cannot make its readers fail: it has an unordered view (`File.exists_view`).
-/
namespace ProtoIdl

open Grammar (Scope Production)

/-- What a statement is read as. -/
def Statement.production : Statement → Production
  | .version _ => .version
  | .importing _ => .importing
  | .package _ => .package
  | .option _ => .option
  | .field _ => .field
  | .mapField _ => .mapField
  | .enumField _ => .enumField
  | .reserved _ => .reserved

/-- What a block is read as. -/
def Head.production : Head → Production
  | .oneof _ => .oneof
  | .enum _ => .enum
  | .extend _ => .extend
  | .message _ => .message
  | .service _ => .service
  | .rpc _ => .rpc

/-- The kind of the body behind a head. -/
def Head.scope : Head → Scope
  | .oneof _ => .oneof
  | .enum _ => .enum
  | .extend _ => .extend
  | .message _ => .message
  | .service _ => .service
  | .rpc _ => .rpc

/-- What a body may hold. -/
def bodyHolds : Scope → List Production
  | .file => [.importing, .package, .option, .message, .enum, .service, .extend]
  | .oneof => [.option, .field]
  | .enum => [.option, .reserved, .enumField]
  | .extend => [.field]
  | .message => [.option, .field, .mapField, .reserved, .enum, .message, .oneof, .extend]
  | .service => [.option, .rpc]
  | .rpc => [.option]

/-- The types of which maps have keys. -/
def mapKeyTypes : List String :=
  ["int32", "int64", "uint32", "uint64", "sint32", "sint64", "fixed32", "fixed64", "sfixed32",
   "sfixed64", "bool", "string"]

/-- The statement may stand in the body. A oneof has no repeated field, and what is reserved are
either numbers or names. -/
def Statement.Proper (scope : Scope) (s : Statement) : Prop :=
  s.production ∈ bodyHolds scope ∧
    match s with
    | .field f => scope = .oneof → f.isRepeated = false
    | .mapField f => f.keyType ∈ mapKeyTypes
    | .reserved r => r.ranges ≠ [] ∧ r.names = [] ∨ r.ranges = [] ∧ r.names ≠ []
    | _ => True

mutual
/-- The element may stand in the body. -/
def Element.Proper (scope : Scope) : Element → Prop
  | .comment _ => True
  | .statement s _ => s.Proper scope
  | .block head body _ _ => head.production ∈ bodyHolds scope ∧ Element.AllProper head.scope body
  | .fragment _ | .file _ _ => False

/-- All elements of a body may stand there. -/
def Element.AllProper (scope : Scope) : List Element → Prop
  | [] => True
  | e :: es => e.Proper scope ∧ Element.AllProper scope es
end

namespace Element

variable {scope : Scope} {e : Element} {es ds : List Element}

theorem allProper_iff : AllProper scope es ↔ ∀ e ∈ es, e.Proper scope := by
  induction es with
  | nil => simp [AllProper]
  | cons e es ih => simp [AllProper, ih]

theorem AllProper.append (h : AllProper scope es) (hd : AllProper scope ds) :
    AllProper scope (es ++ ds) := by
  rw [allProper_iff] at *
  exact List.forall_mem_append.2 ⟨h, hd⟩

theorem allProper_comments (cs : List Comment) : AllProper scope (cs.map .comment) := by
  rw [allProper_iff, List.forall_mem_map]
  exact fun _ _ => by rw [Proper]; trivial

/-- The notes of a declaration do not matter. -/
theorem Proper.mapNotes (f : Notes → Notes) (h : e.Proper scope) : (e.mapNotes f).Proper scope := by
  cases e with
  | comment c => exact h
  | statement s notes => exact h
  | block head body curly notes => exact h
  | fragment f => exact h
  | file v body => exact h

end Element

/-! ## Views -/

namespace View

open Element (AllProper allProper_iff)

/-- The kind of the bodies of a level. -/
def Level.scope : Level → Scope
  | .file => .file
  | .message => .message
  | .enum => .enum
  | .service => .service

variable {level : Level} {body : List Element}

theorem Level.holds_of_proper {e : Element} (h : e.Proper level.scope) : level.holds e = true := by
  cases e with
  | comment c => cases level <;> rfl
  | statement s notes =>
    have hs := h.1
    cases level <;> cases s <;>
      first | rfl | simp [Statement.production, Level.scope, bodyHolds] at hs
  | block head body curly notes =>
    have hs := h.1
    cases level <;> cases head <;>
      first | rfl | simp [Head.production, Level.scope, bodyHolds] at hs
  | fragment f => exact h.elim
  | file v body => exact h.elim

theorem check_of_proper (level : Level) (h : AllProper level.scope body) : check level body = .ok () := by
  have hfind : body.find? (fun e => !level.holds e) = none := by
    rw [List.find?_eq_none]
    intro e he
    rw [Level.holds_of_proper (allProper_iff.1 h e he)]
    decide
  rw [check, hfind]

mutual
/-- What is nested in a proper element has views. -/
theorem exists_nestedOf (scope : Scope) (level : Level) : (e : Element) → e.Proper scope →
    ∃ n, nestedOf level e = .ok n
  | .block head body curly notes, h => by
    have hbody : AllProper head.scope body := h.2
    cases head with
    | message name =>
      obtain ⟨n, hn⟩ := exists_nestedIn .message .message body hbody
      have hcheck := check_of_proper .message hbody
      simp [nestedOf, hn, assemble, hcheck, bind, Except.bind, pure, Except.pure]
    | enum name =>
      have hcheck := check_of_proper .enum hbody
      simp [nestedOf, ofEnum, hcheck, bind, Except.bind, pure, Except.pure]
    | service name =>
      have hcheck := check_of_proper .service hbody
      rw [nestedOf]
      split <;> simp [ofService, hcheck, bind, Except.bind, pure, Except.pure]
    | oneof name => exact ⟨_, rfl⟩
    | extend type => exact ⟨_, rfl⟩
    | rpc r => exact ⟨_, rfl⟩
  | .comment _, _ => ⟨_, rfl⟩
  | .statement _ _, _ => ⟨_, rfl⟩
  | .fragment _, _ => ⟨_, rfl⟩
  | .file _ _, _ => ⟨_, rfl⟩

theorem exists_nestedIn (scope : Scope) (level : Level) : (body : List Element) → AllProper scope body →
    ∃ n, nestedIn level body = .ok n
  | [], _ => ⟨_, rfl⟩
  | e :: rest, h => by
    obtain ⟨m, hm⟩ := exists_nestedOf scope level e h.1
    obtain ⟨n, hn⟩ := exists_nestedIn scope level rest h.2
    simp [nestedIn, hm, hn, bind, Except.bind, pure, Except.pure]
end

end View

namespace File

variable {f : File}

/-- A file whose bodies hold what they may has an unordered view. -/
theorem exists_view (h : Element.AllProper .file f.body) : ∃ v, View.ofFile f = .ok v := by
  obtain ⟨n, hn⟩ := View.exists_nestedIn .file .file f.body h
  have hcheck := View.check_of_proper .file h
  simp [View.ofFile, hn, hcheck, bind, Except.bind, pure, Except.pure]

end File

end ProtoIdl
