import ProtoIdl.Proofs.Grammar.Collected
import ProtoIdl.Proofs.Grammar.Landed
import ProtoIdl.Proofs.Grammar.Values
import ProtoIdl.Proofs.Tree.Description
/-!
# The fields of an endpoint

A field of an endpoint is named by anything but the word that a binding starts with: the reader looks
for that word first. What it looked at is put back, and in a text without ill-formed octets the same
word comes next (`Reader.Stands.next_word_again`); this is why the places that a reader reaches are kept
track of here, where other properties of names do without. `Description.Fields.Makes` says that the
fields of an endpoint are spelled like this, however deep they are nested. Main statement:
`Grammar.endpointAtMost_makes`.
-/
namespace ProtoIdl

open Spelling
open Scan (wordKind)

/-- A word that is put back comes next again; its kind was that of the word under the mode. -/
theorem Reader.Stands.next_word_again {m : Mode} {r q : Reader} (h : r.Stands) (hm : m.comments = false)
    (hback : (r.next m).putBack = .ok q) (hk : (q.next .plain).token.kind = .ident) :
    (r.next m).token.kind = wordKind m (q.next .plain).token.text := by
  obtain ⟨t, ts, c, e, hfinds, hr⟩ := h.next_finds hm
  have hq : (r.looked t ts c).Stands := h.looked hfinds.passes.reaches
  rw [hr, putBack_after] at hback
  obtain rfl := Except.ok.inj hback
  obtain ⟨t', ts', c', e', hplain, hnext⟩ := hq.next_finds (m := .plain) rfl
  rw [hnext] at hk ⊢
  rw [hr]
  obtain ⟨rfl, -, hagain⟩ := hfinds.again h.edge_whole hplain
  cases hagain with
  | token hl ht =>
    have hword := (Scan.token_ident_again ht hk m).2
    obtain ⟨rfl, -⟩ := hfinds.unique (.token hl hword)
    rfl
  | unclosed hl =>
    obtain ⟨-, rfl, -⟩ := hl.unclosed_eq
    cases hk

namespace Description

/-- A name of a field: it does not start with the word of a binding. -/
def isFieldName (name : String) : Bool :=
  isName name && !startsWith [Keyword.kwAdditionalBindings.word] (nameTokens name)

/-- The fields are those of the endpoint, and they are spelled as they are read. -/
structure Fields.Makes (fs : Fields) (e : Endpoint) : Prop where
  wellFormed : fs.entries.areWellFormed isFieldName = true
  kept_eq : e.fields.map (·.move fun _ => {}) = fs.kept

namespace Fields.Makes

variable {fs : Fields} {e : Endpoint}

theorem nil : Fields.nil.Makes {} := ⟨rfl, rfl⟩

theorem constant_eq (h : fs.Makes e) : e.constant = (Value.group fs .nil).text := by
  rw [← Endpoint.constant_move (fun _ => {}) e, Value.text, ← h.kept_eq]
  rfl

theorem push (h : fs.Makes e) {f : EndpointField} {value : Value} (hname : isFieldName f.name = true)
    (hvalue : value.literal.isWellFormed isFieldName = true) (hconstant : f.constant = value.text) :
    (fs.push f.name value).Makes { e with fields := e.fields ++ [f] } where
  wellFormed := Fields.areWellFormed_push h.wellFormed hname hvalue
  kept_eq := by
    have hf : f.move (fun _ => {}) = { name := f.name, constant := value.text } := by
      rw [← hconstant]
      rfl
    rw [Fields.kept_push, ← h.kept_eq, List.map_append, List.map_singleton, hf]

/-- Bindings are no fields. -/
theorem of_fields_eq (h : fs.Makes e) {e' : Endpoint} (he : e'.fields = e.fields) : fs.Makes e' :=
  ⟨h.wellFormed, he ▸ h.kept_eq⟩

end Fields.Makes

end Description

namespace Grammar

open Reading
open Description (isFieldName Fields Value)

variable {e : Cursor} {r : Reader}

/-- A name starts with an identifier. -/
theorem fullIdent_ident :
    Sat fullIdent r (fun _ _ => (r.next .plain).token.kind = .ident) fun _ => True := by
  have hfirst : Sat (expectIdent "ident") r (fun _ _ => (r.next .plain).token.kind = .ident)
      fun _ => True := by
    refine (next_sat .plain).bind ?_
    rintro kind _ ⟨rfl, rfl⟩
    split
    · next hk => exact sat_text hk
    · exact reject_sat trivial
  exact hfirst.bind fun _ r' h => (sat_trivial _ r').mono fun _ _ _ => h

/-- A name that comes next where no binding does. -/
theorem fullIdent_isFieldName {q : Reader} (hr : r.Stands)
    (hback : (r.next .keyword).putBack = .ok q)
    (hk : (r.next .keyword).token.kind ≠ .keyword .kwAdditionalBindings) :
    Sat fullIdent q (fun a _ => isFieldName a.1 = true) fun _ => True := by
  refine (fullIdent_tokens.and fullIdent_ident).mono ?_
  rintro ⟨name, start⟩ _ ⟨⟨ts, hfull, hname⟩, hident⟩
  have hkind := hr.next_word_again rfl hback hident
  have hfirst : startsWith [Keyword.kwAdditionalBindings.word]
      ((q.next .plain).token.text :: ts) = false := by
    rw [← Bool.not_eq_true, startsWith_cons, List.mem_singleton]
    intro hword
    rw [hword, wordKind_keyword] at hkind
    exact hk hkind
  rw [show name = _ from hname, isFieldName, Description.isName, nameTokens_join hfull, hfull, hfirst]
  rfl

section
variable {nested : Reading Endpoint} (hnested : ∀ r, r.Behind e →
  Sat nested r (fun x r' => r'.Behind e ∧ ∃ fs : Fields, fs.Makes x) fun _ => True)
include hnested

/-- The value of a field is a constant, or the text of an endpoint. -/
theorem endpointField_makes {q : Reader} (hr : r.Behind e)
    (hback : (r.next .keyword).putBack = .ok q)
    (hk : (r.next .keyword).token.kind ≠ .keyword .kwAdditionalBindings) :
    Sat (endpointField nested) q (fun f r' => r'.Behind e ∧ isFieldName f.name = true ∧
      ∃ v : Value, v.literal.isWellFormed isFieldName = true ∧ f.constant = v.text) fun _ => True := by
  have hkeeps : Keeps (staysBehind e) fullIdent := keeps_fullIdent
  refine ((hkeeps q ((hr.next _).putBack hback)).and
    (fullIdent_isFieldName hr.toStands hback hk)).bind ?_
  rintro ⟨name, start⟩ r₁ ⟨hr₁, hname⟩
  have hgroup (r : Reader) (hr : r.Behind e) : Sat nested r (fun x r' => r'.Behind e ∧
      ∃ v : Value, v.literal.isWellFormed isFieldName = true ∧ x.constant = v.text) fun _ => True :=
    (hnested r hr).mono fun x _ ⟨hr', fs, hfs⟩ =>
      ⟨hr', .group fs .nil, hfs.wellFormed, hfs.constant_eq⟩
  refine (next_sat .plain).bind ?_
  rintro kind _ ⟨-, rfl⟩
  have hr₂ : (r₁.next .plain).Behind e := Reader.Behind.next hr₁ .plain
  split
  · refine (staysBehind_putBack _ hr₂).bind fun _ r hr => (hgroup r hr).bind fun x r hx => ?_
    exact sat_pure_bind (sat_position_bind (sat_pure ⟨hx.1, hname, hx.2⟩))
  · have hconst : Keeps (staysBehind e) (constant? true) := keeps_constant? true
    refine ((hconst _ hr₂).and (constant?_value true)).bind ?_
    rintro ⟨_ | text, p⟩ r ⟨hr, hvalue⟩
    · refine (hgroup r hr).bind fun x r hx => ?_
      exact sat_pure_bind (sat_position_bind (sat_pure ⟨hx.1, hname, hx.2⟩))
    · exact sat_pure_bind (sat_position_bind (sat_pure
        ⟨hr, hname, .constant text, hvalue text rfl, rfl⟩))
  · exact (reject_sat trivial).bind_of_fails

theorem binding_behind (hr : r.Behind e) :
    Sat (binding nested) r (fun _ r' => r'.Behind e) fun _ => True := by
  have haccept : Keeps (staysBehind e) (accept .colon) := keeps_accept .colon
  refine sat_position_bind ((haccept r hr).bind fun _ r hr => ?_)
  exact (hnested r hr).bind fun _ r hx => sat_position_bind (sat_pure hx.1)

theorem endpointRound_makes {x : Endpoint} {fs : Fields} (hx : fs.Makes x) (hr : r.Behind e) :
    Sat (endpointRound nested x) r (fun a r' => r'.Behind e ∧ match a with
      | .again y => ∃ fs : Fields, fs.Makes y
      | .done y => ∃ fs : Fields, fs.Makes y) fun _ => True := by
  have haccept : Keeps (staysBehind e) (accept .comma) := keeps_accept .comma
  have hr₁ : (r.next .keyword).Behind e := hr.next .keyword
  refine (next_sat .keyword).bind ?_
  rintro kind _ ⟨hkind, rfl⟩
  split
  · exact sat_pure ⟨hr₁, fs, hx⟩
  · refine (binding_behind hnested hr₁).bind fun b r hr => (haccept r hr).bind fun _ r hr => ?_
    exact sat_pure ⟨hr, fs, hx.of_fields_eq rfl⟩
  · next hbinding =>
    refine (putBack_sat .keyword).bind fun _ q ⟨hback, _⟩ => ?_
    refine (endpointField_makes hnested hr hback fun h => hbinding (hkind.trans h)).bind ?_
    rintro f r ⟨hr, hname, value, hvalue, hconstant⟩
    refine (haccept r hr).bind fun _ r hr => sat_pure ⟨hr, ?_⟩
    exact ⟨fs.push f.name value, hx.push hname hvalue hconstant⟩

end

theorem endpointAtMost_makes (depth : Nat) (hr : r.Behind e) : Sat (endpointAtMost depth) r
    (fun x r' => r'.Behind e ∧ ∃ fs : Fields, fs.Makes x) fun _ => True := by
  induction depth generalizing r with
  | zero => exact sat_throw trivial
  | succ depth ih =>
    have hopen : Keeps (staysBehind e) (expectDelimiter .leftBrace "\x7b") :=
      keeps_expectDelimiter _ _
    refine (hopen r hr).bind fun _ r hr => ?_
    refine sat_repeatFrom (I := fun x r => r.Behind e ∧ ∃ fs : Fields, fs.Makes x)
      ⟨hr, .nil, .nil⟩ ?_ trivial
    rintro x r ⟨hr, fs, hx⟩
    refine (endpointRound_makes (fun _ hr => ih hr) hx hr).mono ?_
    rintro (y | y) r' h <;> exact h

end Grammar

end ProtoIdl
