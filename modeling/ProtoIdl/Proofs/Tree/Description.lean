import ProtoIdl.Proofs.Tree.Literal
import ProtoIdl.Proofs.Tree.Move
/-!
# What is written for an endpoint

The tree keeps the fields of an endpoint and those of its bindings. The value of a field is kept as
text, and the text of a value between curly brackets names the fields in it only: bindings that are
written in such a value, or in another binding, leave no trace. A `Description` is what is written,
with nothing left out but the order between fields and bindings, and `Description.prune` leaves out
what leaves no trace. Main statement: `Description.endpoint_eq_iff`.
-/
namespace ProtoIdl

open Spelling

namespace Description

mutual
/-- What is written as the value of a field: a constant, or fields and bindings between curly
brackets. -/
inductive Value
  | constant (text : String)
  | group (fields : Fields) (bindings : Bindings)
deriving DecidableEq

/-- Fields in the order in which they are written. -/
inductive Fields
  | nil
  | cons (name : String) (value : Value) (rest : Fields)
deriving DecidableEq

/-- Bindings in the order in which they are written; each has fields and bindings between its
brackets. -/
inductive Bindings
  | nil
  | cons (fields : Fields) (bindings rest : Bindings)
deriving DecidableEq
end

end Description

/-- What is written between the curly brackets of an endpoint. -/
structure Description where
  fields : Description.Fields := .nil
  bindings : Description.Bindings := .nil
deriving DecidableEq

/-- An endpoint without its places. -/
def Endpoint.erase (e : Endpoint) : Endpoint := e.move fun _ => {}

namespace Description

/-! ## What the tree keeps -/

mutual
/-- The text that is kept of a value. -/
def Value.text : Value → String
  | .constant text => text
  | .group fields _ => ({ fields := fields.kept } : Endpoint).constant

/-- Fields as they are kept. -/
def Fields.kept : Fields → List EndpointField
  | .nil => []
  | .cons name value rest => { name, constant := value.text } :: rest.kept
end

/-- Bindings as they are kept. -/
def Bindings.kept : Bindings → List Binding
  | .nil => []
  | .cons fields _ rest => { fields := fields.kept } :: rest.kept

/-- The endpoint that is kept, without its places. -/
def endpoint (d : Description) : Endpoint :=
  { fields := d.fields.kept, bindings := d.bindings.kept }

/-! ## What leaves no trace -/

/-- Whether there are no bindings. -/
def Bindings.isEmpty : Bindings → Bool
  | .nil => true
  | .cons .. => false

mutual
/-- A value without the bindings in it. -/
def Value.prune : Value → Value
  | .constant text => .constant text
  | .group fields _ => .group fields.prune .nil

/-- Fields without the bindings in their values. -/
def Fields.prune : Fields → Fields
  | .nil => .nil
  | .cons name value rest => .cons name value.prune rest.prune
end

/-- Bindings without the bindings in them. -/
def Bindings.prune : Bindings → Bindings
  | .nil => .nil
  | .cons fields _ rest => .cons fields.prune .nil rest.prune

/-- A description without the bindings that are written in a value or in another binding. -/
def prune (d : Description) : Description :=
  { fields := d.fields.prune, bindings := d.bindings.prune }

mutual
/-- Whether there are no bindings in a value. -/
def Value.isWhole : Value → Bool
  | .constant _ => true
  | .group fields bindings => bindings.isEmpty && fields.areWhole

/-- Whether there are no bindings in the values of the fields. -/
def Fields.areWhole : Fields → Bool
  | .nil => true
  | .cons _ value rest => value.isWhole && rest.areWhole
end

/-- Whether there are no bindings in the bindings. -/
def Bindings.areWhole : Bindings → Bool
  | .nil => true
  | .cons fields bindings rest => bindings.isEmpty && fields.areWhole && rest.areWhole

/-- Whether no bindings are written in a value or in another binding. -/
def isWhole (d : Description) : Bool := d.fields.areWhole && d.bindings.areWhole

theorem Bindings.nil_eq_iff (bs : Bindings) : .nil = bs ↔ bs.isEmpty = true := by
  cases bs <;> simp [isEmpty]

mutual
theorem Value.prune_eq_self_iff : (v : Value) → (v.prune = v ↔ v.isWhole = true)
  | .constant _ => by simp [Value.prune, Value.isWhole]
  | .group fields bindings => by
    simp [Value.prune, Value.isWhole, Bindings.nil_eq_iff, Fields.prune_eq_self_iff fields,
      and_comm]

theorem Fields.prune_eq_self_iff : (fs : Fields) → (fs.prune = fs ↔ fs.areWhole = true)
  | .nil => by simp [Fields.prune, Fields.areWhole]
  | .cons name value rest => by
    simp [Fields.prune, Fields.areWhole, Value.prune_eq_self_iff value,
      Fields.prune_eq_self_iff rest]
end

theorem Bindings.prune_eq_self_iff (bs : Bindings) : bs.prune = bs ↔ bs.areWhole = true := by
  match bs with
  | .nil => simp [prune, areWhole]
  | .cons fields bindings rest =>
    simp [prune, areWhole, nil_eq_iff, fields.prune_eq_self_iff, rest.prune_eq_self_iff, and_left_comm,
      and_assoc]

/-- What leaves no trace is what is written in a value or in another binding. -/
theorem prune_eq_self_iff (d : Description) : d.prune = d ↔ d.isWhole = true := by
  obtain ⟨fields, bindings⟩ := d
  simp [prune, isWhole, fields.prune_eq_self_iff, bindings.prune_eq_self_iff]

mutual
theorem Value.text_prune : (v : Value) → v.prune.text = v.text
  | .constant _ => rfl
  | .group fields _ => by rw [Value.prune, Value.text, Value.text, Fields.kept_prune fields]

theorem Fields.kept_prune : (fs : Fields) → fs.prune.kept = fs.kept
  | .nil => rfl
  | .cons name value rest => by
    rw [Fields.prune, Fields.kept, Fields.kept, Value.text_prune value, Fields.kept_prune rest]
end

/-! ## What a text tells -/

/-- Whether there are no fields. -/
def Fields.isEmpty : Fields → Bool
  | .nil => true
  | .cons .. => false

mutual
/-- The text of a value as a literal. -/
def Value.literal : Value → Literal
  | .constant text => .constant text
  | .group fields _ => .group fields.entries

/-- The text of fields as entries, with a comma between each two. -/
def Fields.entries : Fields → Entries
  | .nil => .nil
  | .cons name value rest => .cons name value.literal (!rest.isEmpty) rest.entries
end

mutual
theorem Value.render_literal : (v : Value) → v.literal.render = v.text
  | .constant _ => rfl
  | .group fields _ => by
    rw [Value.literal, Literal.render, Fields.render_entries fields]
    rfl

theorem Fields.render_entries : (fs : Fields) →
    fs.entries.render = ",".intercalate (fs.kept.map EndpointField.render)
  | .nil => rfl
  | .cons name value rest => by
    have hrest := Fields.render_entries rest
    rw [Fields.entries, Entries.render, Value.render_literal value, hrest]
    cases rest <;> simp [Fields.isEmpty, Fields.kept, EndpointField.render, String.append_assoc]
end

mutual
theorem Value.isBlurred_literal (isName : String → Bool) : (v : Value) →
    v.literal.isBlurred isName = false
  | .constant _ => rfl
  | .group fields _ => Fields.areBlurred_entries isName fields

theorem Fields.areBlurred_entries (isName : String → Bool) : (fs : Fields) →
    fs.entries.areBlurred isName = false
  | .nil => rfl
  | .cons name value rest => by
    have hborder : (!(!rest.isEmpty) && value.literal.runsInto isName rest.entries) = false := by
      cases rest with
      | nil => cases value <;> rfl
      | cons => rfl
    rw [Fields.entries, Entries.areBlurred, hborder, Value.isBlurred_literal isName value,
      Fields.areBlurred_entries isName rest]
    rfl
end

mutual
/-- The bindings in a value are all that its literal does not tell. -/
theorem Value.prune_eq_of_literal_eq : (v w : Value) → v.literal = w.literal → v.prune = w.prune
  | .constant _, .constant _, h => by rw [Literal.constant.inj h]
  | .group fields _, .group fields' _, h => by
    rw [Value.prune, Value.prune, Fields.prune_eq_of_entries_eq fields fields' (Literal.group.inj h)]
  | .constant _, .group .., h | .group .., .constant _, h => nomatch h

theorem Fields.prune_eq_of_entries_eq : (fs gs : Fields) → fs.entries = gs.entries →
    fs.prune = gs.prune
  | .nil, .nil, _ => rfl
  | .cons name value rest, .cons name' value' rest', h => by
    obtain ⟨rfl, hvalue, -, hrest⟩ := Entries.cons.inj h
    rw [Fields.prune, Fields.prune, Value.prune_eq_of_literal_eq value value' hvalue,
      Fields.prune_eq_of_entries_eq rest rest' hrest]
  | .nil, .cons .., h | .cons .., .nil, h => nomatch h
end

/-- A name of a field: identifiers with dots between them. -/
def isName (w : String) : Bool := isFullIdent (nameTokens w)

theorem areWords_isName : AreWords isName := fun _ h => all_of_isFullIdent h

/-- Whether the names and the constants in all bindings are spelled as they are read. -/
def Bindings.areWellFormed : Bindings → Bool
  | .nil => true
  | .cons fields _ rest => fields.entries.areWellFormed isName && rest.areWellFormed

/-- The names and the constants in a description that leave a trace are spelled as they are read. -/
structure Legible (d : Description) : Prop where
  fields : d.fields.entries.areWellFormed isName = true
  bindings : d.bindings.areWellFormed = true

/-- What is kept of fields tells everything of them but the bindings in their values. -/
theorem Fields.kept_eq_iff {fs gs : Fields} (hf : fs.entries.areWellFormed isName = true)
    (hg : gs.entries.areWellFormed isName = true) : fs.kept = gs.kept ↔ fs.prune = gs.prune := by
  constructor
  · intro h
    have htext : fs.entries.render.toList ++ ['\x7d'] = gs.entries.render.toList ++ ['\x7d'] := by
      rw [fs.render_entries, gs.render_entries, h]
    exact prune_eq_of_entries_eq fs gs
      (Entries.render_cancel areWords_isName fs.entries gs.entries hf hg
        (fs.areBlurred_entries isName) htext).1
  · intro h
    rw [← fs.kept_prune, h, gs.kept_prune]

theorem Bindings.kept_eq_iff {bs cs : Bindings} (hb : bs.areWellFormed = true)
    (hc : cs.areWellFormed = true) : bs.kept = cs.kept ↔ bs.prune = cs.prune := by
  match bs, cs with
  | .nil, .nil => simp [kept, prune]
  | .nil, .cons .. | .cons .., .nil => simp [kept, prune]
  | .cons fields _ rest, .cons fields' _ rest' =>
    rw [areWellFormed, Bool.and_eq_true] at hb hc
    simp [kept, prune, Fields.kept_eq_iff hb.1 hc.1, kept_eq_iff hb.2 hc.2]

/-- Two endpoints are the same up to places if and only if what is written for them is the same up
to the bindings in values and in other bindings. -/
theorem endpoint_eq_iff {d e : Description} (hd : d.Legible) (he : e.Legible) :
    d.endpoint = e.endpoint ↔ d.prune = e.prune := by
  simp [endpoint, prune, Fields.kept_eq_iff hd.fields he.fields,
    Bindings.kept_eq_iff hd.bindings he.bindings]

/-! ## What is read step by step -/

/-- Puts a field behind the others. -/
def Fields.push (name : String) (value : Value) : Fields → Fields
  | .nil => .cons name value .nil
  | .cons n v rest => .cons n v (rest.push name value)

/-- Puts a binding behind the others. -/
def Bindings.push (d : Description) : Bindings → Bindings
  | .nil => .cons d.fields d.bindings .nil
  | .cons fields bindings rest => .cons fields bindings (rest.push d)

/-- A description as the value of a field. -/
def value (d : Description) : Value := .group d.fields d.bindings

theorem Fields.kept_push (name : String) (value : Value) (fs : Fields) :
    (fs.push name value).kept = fs.kept ++ [{ name, constant := value.text }] := by
  match fs with
  | .nil => rfl
  | .cons n v rest => rw [push, kept, kept, rest.kept_push, List.cons_append]

theorem Fields.areWellFormed_push {isName : String → Bool} {name : String} {value : Value} {fs : Fields}
    (hfields : fs.entries.areWellFormed isName = true) (hname : isName name = true)
    (hvalue : value.literal.isWellFormed isName = true) :
    (fs.push name value).entries.areWellFormed isName = true := by
  match fs with
  | .nil => simp [push, entries, Entries.areWellFormed, hname, hvalue]
  | .cons n v rest =>
    simp only [entries, Entries.areWellFormed, Bool.and_eq_true] at hfields
    simp only [push, entries, Entries.areWellFormed, Bool.and_eq_true]
    exact ⟨hfields.1, areWellFormed_push hfields.2 hname hvalue⟩

theorem Bindings.kept_push (d : Description) (bs : Bindings) :
    (bs.push d).kept = bs.kept ++ [{ fields := d.fields.kept }] := by
  match bs with
  | .nil => rfl
  | .cons fields bindings rest => rw [push, kept, kept, rest.kept_push, List.cons_append]

theorem Bindings.areWellFormed_push {d : Description} {bs : Bindings}
    (hd : d.fields.entries.areWellFormed isName = true) (hb : bs.areWellFormed = true) :
    (bs.push d).areWellFormed = true := by
  match bs with
  | .nil => simp [push, areWellFormed, hd]
  | .cons fields bindings rest =>
    rw [areWellFormed, Bool.and_eq_true] at hb
    rw [push, areWellFormed, Bool.and_eq_true]
    exact ⟨hb.1, areWellFormed_push hd hb.2⟩

/-- A description is what was written for an endpoint: of it the endpoint is kept. -/
structure Describes (d : Description) (e : Endpoint) : Prop where
  legible : d.Legible
  erase_eq : e.erase = d.endpoint

namespace Describes

variable {d : Description} {e : Endpoint}

theorem nil : ({} : Description).Describes {} := ⟨⟨rfl, rfl⟩, rfl⟩

theorem fields_eq (h : d.Describes e) : e.fields.map (·.move fun _ => {}) = d.fields.kept :=
  congrArg Endpoint.fields h.erase_eq

theorem bindings_eq (h : d.Describes e) : e.bindings.map (·.move fun _ => {}) = d.bindings.kept :=
  congrArg Endpoint.bindings h.erase_eq

theorem constant_eq (h : d.Describes e) : e.constant = d.value.text := by
  rw [← Endpoint.constant_move (fun _ => {}) e, ← Endpoint.erase, h.erase_eq]
  rfl

theorem pushField (h : d.Describes e) {f : EndpointField} {value : Value}
    (hname : isName f.name = true) (hvalue : value.literal.isWellFormed isName = true)
    (hconstant : f.constant = value.text) :
    Describes { d with fields := d.fields.push f.name value }
      { e with fields := e.fields ++ [f] } where
  legible := ⟨Fields.areWellFormed_push h.legible.fields hname hvalue, h.legible.bindings⟩
  erase_eq := by
    have hf : f.move (fun _ => {}) = { name := f.name, constant := value.text } := by
      rw [← hconstant]
      rfl
    rw [Endpoint.erase, Endpoint.move, endpoint, Fields.kept_push, ← h.fields_eq, ← h.bindings_eq,
      List.map_append, List.map_singleton, hf]

theorem pushBinding (h : d.Describes e) {b : Binding} {inner : Description}
    (hlegible : inner.Legible)
    (hfields : b.fields.map (·.move fun _ => {}) = inner.fields.kept) :
    Describes { d with bindings := d.bindings.push inner }
      { e with bindings := e.bindings ++ [b] } where
  legible := ⟨h.legible.fields, Bindings.areWellFormed_push hlegible.fields h.legible.bindings⟩
  erase_eq := by
    have hb : b.move (fun _ => {}) = { fields := inner.fields.kept } := by
      rw [← hfields]
      rfl
    rw [Endpoint.erase, Endpoint.move, endpoint, Bindings.kept_push, ← h.fields_eq, ← h.bindings_eq,
      List.map_append, List.map_singleton, hb]

end Describes

end Description

end ProtoIdl
