import ProtoIdl.Grammar.Body
import ProtoIdl.Proofs.Recovery.Statements
/-!
# Elements start with their own words

The first token of an element decides what is read (`Begins`). A keyword that starts a declaration
does so in every body that may hold the declaration; a field or an enum value starts with a word of
its own, which must not be one of the keywords that mean something else there.

Behind every element the queue of comments is looked at. On words without comments it stays empty.
-/
namespace ProtoIdl

open Spelling
open Grammar (Scope Production)

variable {scope : Scope} {ws rest : List String}

/-- The keyword that a declaration starts with. Fields and enum values have none. -/
def Grammar.Production.keyword? : Production → Option Keyword
  | .version => some .kwSyntax
  | .importing => some .kwImport
  | .package => some .kwPackage
  | .option => some .kwOption
  | .field => none
  | .mapField => some .kwMap
  | .enumField => none
  | .reserved => some .kwReserved
  | .oneof => some .kwOneof
  | .enum => some .kwEnum
  | .extend => some .kwExtend
  | .message => some .kwMessage
  | .service => some .kwService
  | .rpc => some .kwRpc

/-- The kind of a first token that ends no body and is no empty statement. -/
inductive Leads : Kind → Prop
  | ident : Leads .ident
  | dot : Leads (.delimiter .dot)
  | keyword (k : Keyword) : Leads (.keyword k)

/-- On these words something starts that is read as `p`. -/
def Begins (scope : Scope) (p : Production) (ws : List String) : Prop :=
  ∃ kind w rest, Lexes .keyword ws kind w rest ∧ Leads kind ∧ scope.production? kind = some p

theorem Begins.bare {p : Production} (h : Begins scope p ws) : (front ws).head? ≠ some '/' := by
  obtain ⟨kind, w, rest, hl, -⟩ := h
  exact hl.bare

/-- A body that may hold a declaration reads it where its keyword comes. -/
theorem production?_keyword {p : Production} {k : Keyword} (h : (bodyHolds scope).contains p = true)
    (hk : p.keyword? = some k) : scope.production? (.keyword k) = some p := by
  cases p
  case field => cases hk
  case enumField => cases hk
  all_goals
    obtain rfl := Option.some.inj hk
    revert h
    cases scope <;> decide

theorem begins_keyword {p : Production} {k : Keyword} (h : (bodyHolds scope).contains p = true)
    (hk : p.keyword? = some k) (ws : List String) : Begins scope p (k.word :: ws) :=
  ⟨_, _, _, lexes_keyword k ws, .keyword k, production?_keyword h hk⟩

/-! ## Fields and enum values -/

/-- A field is read where no word comes that starts something else. -/
theorem production?_field {k : Keyword} (h : (bodyHolds scope).contains .field = true)
    (hk : k.word ∉ barredWords scope) : scope.production? (.keyword k) = some .field := by
  cases scope
  case oneof | message | extend =>
    revert hk
    cases k <;> decide +kernel
  case file | enum | service | rpc => cases h

theorem production?_plain {kind : Kind} (h : (bodyHolds scope).contains .field = true)
    (hkind : kind = .delimiter .dot ∨ kind = .ident) : scope.production? kind = some .field := by
  revert h
  rcases hkind with rfl | rfl
  · cases scope <;> decide
  · cases scope <;> decide

theorem production?_enumField {k : Keyword} (hk : k.word ∉ barredWords .enum) :
    Scope.enum.production? (.keyword k) = some .enumField := by
  revert hk
  cases k <;> decide +kernel

variable (σ : Style)

theorem Statement.fits_holds {s : Statement} (h : s.fits scope = true) :
    (bodyHolds scope).contains s.production = true := by
  unfold Statement.fits at h
  exact (Bool.and_eq_true_iff.1 h).1

theorem field_begins {f : Field} (h : (Statement.field f).fits scope = true)
    (hf : (Statement.field f).isWellFormed = true) (ws : List String) :
    Begins scope .field (Statement.words σ (.field f) ++ ";" :: ws) := by
  rw [Statement.fits, Bool.and_eq_true] at h
  obtain ⟨hholds, hfirst⟩ := h
  rw [Grammar.field_words]
  by_cases hrep : f.isRepeated = true
  · rw [if_pos hrep] at hfirst ⊢
    have hscope : scope ≠ .oneof := by simpa using hfirst
    refine ⟨_, _, _, lexes_keyword .kwRepeated _, .keyword _, ?_⟩
    cases scope
    case oneof => exact absurd rfl hscope
    case message | extend => rfl
    case file | enum | service | rpc => cases hholds
  · rw [if_neg hrep] at hfirst ⊢
    simp only [Statement.isWellFormed, Bool.and_eq_true] at hf
    obtain ⟨kind, w, rest, hl, hkind⟩ := Grammar.lexes_type σ.loose
      (Grammar.isFieldType_messageType hf.1) [] (by simp)
      (f.name :: "=" :: f.number :: (settingsWords σ f.settings ++ ";" :: ws))
    rw [List.append_nil] at hl
    refine ⟨kind, w, rest, hl, ?_⟩
    rcases hkind with rfl | rfl | ⟨k, rfl, hhead⟩
    · exact ⟨.dot, production?_plain hholds (.inl rfl)⟩
    · exact ⟨.ident, production?_plain hholds (.inr rfl)⟩
    · refine ⟨.keyword k, production?_field hholds fun hmem => ?_⟩
      rw [(startsWith_iff hhead).2 hmem] at hfirst
      cases hfirst

theorem enumField_begins {f : EnumField} (h : (Statement.enumField f).fits scope = true)
    (hf : (Statement.enumField f).isWellFormed = true) (ws : List String) :
    Begins scope .enumField (Statement.words σ (.enumField f) ++ ";" :: ws) := by
  have hholds : (bodyHolds scope).contains .enumField = true := Statement.fits_holds h
  rw [Statement.fits, Bool.and_eq_true] at h
  obtain ⟨-, hname⟩ := h
  obtain rfl : scope = .enum := by
    revert hholds
    cases scope <;> decide
  have hname : f.name ∉ barredWords .enum := by simpa using hname
  simp only [Statement.isWellFormed, Bool.and_eq_true] at hf
  refine ⟨_, _, _, lexes_identifier .keyword hf.1.1 _, ?_⟩
  rcases wordKind_keyword_cases f.name with hk | ⟨k, hk, hword⟩
  · rw [hk]
    exact ⟨.ident, rfl⟩
  · rw [hk]
    exact ⟨.keyword k, production?_enumField (hword ▸ hname)⟩

/-! ## Statements and heads -/

theorem Statement.words_keyword {s : Statement} {k : Keyword} (h : s.production.keyword? = some k) :
    ∃ more, s.words σ = k.word :: more := by
  cases s with
  | field f => cases h
  | enumField f => cases h
  | version v | importing i | package p | option o | mapField f | reserved r =>
    obtain rfl := Option.some.inj h
    exact ⟨_, rfl⟩

theorem Head.words_keyword (head : Head) :
    ∃ k more, head.production.keyword? = some k ∧ head.words σ = k.word :: more := by
  cases head <;> exact ⟨_, _, rfl, rfl⟩

theorem statement_begins {s : Statement} (h : s.fits scope = true) (hs : s.isWellFormed = true)
    (ws : List String) : Begins scope s.production (s.words σ ++ ";" :: ws) := by
  cases hk : s.production.keyword? with
  | some k =>
    obtain ⟨more, hwords⟩ := s.words_keyword σ hk
    rw [hwords]
    exact begins_keyword (Statement.fits_holds h) hk _
  | none =>
    cases s with
    | field f => exact field_begins σ h hs ws
    | enumField f => exact enumField_begins σ h hs ws
    | version v | importing i | package p | option o | mapField f | reserved r => cases hk

theorem head_begins {head : Head} (h : (bodyHolds scope).contains head.production = true)
    (ws : List String) : Begins scope head.production (head.words σ ++ ws) := by
  obtain ⟨k, more, hk, hwords⟩ := head.words_keyword σ
  rw [hwords]
  exact begins_keyword h hk _

namespace Grammar

open Reading

theorem wrapped_yields {α : Type} {x : Reading (Noted α)} {a : α}
    (wrap : α → Statement) (h : Yields x ws fun n ws' => Bare a n ∧ ws' = rest) :
    Yields (do return statement wrap (← x)) ws fun e ws' =>
      (∃ x : Extent, e = .statement (wrap a) { extent := x }) ∧ ws' = rest := by
  refine h.bind ?_
  rintro _ _ ⟨⟨x, rfl⟩, rfl⟩
  exact yields_pure ⟨⟨x, rfl⟩, rfl⟩

/-- A field that starts with `repeated` is repeated. -/
theorem fits_first {f : Field} (h : (Statement.field f).fits scope = true)
    (hf : f.isRepeated = false) : startsWith ["repeated"] (nameTokens f.type) = false := by
  have hholds : (bodyHolds scope).contains .field = true := Statement.fits_holds h
  rw [Statement.fits, Bool.and_eq_true] at h
  obtain ⟨-, hfirst⟩ := h
  rw [if_neg (by rw [hf]; exact Bool.false_ne_true), Bool.not_eq_true'] at hfirst
  have hmem : "repeated" ∈ barredWords scope := by
    revert hholds
    cases scope <;> decide
  rw [← Bool.not_eq_true] at hfirst ⊢
  intro hrep
  obtain ⟨w, hw, hhead⟩ := List.any_eq_true.1 hrep
  obtain rfl : w = "repeated" := List.mem_singleton.1 hw
  exact hfirst (List.any_eq_true.2 ⟨_, hmem, hhead⟩)

/-- Every statement is read back from its words. -/
theorem statement_yields (opts : Options) (body : Scope → Reading Body) {s : Statement}
    (h : s.fits scope = true) (hs : s.isWellFormed = true) (ws : List String) :
    Yields (declaration opts body s.production) (s.words σ ++ ";" :: ws) fun e ws' =>
      (∃ x : Extent, e = .statement s { extent := x }) ∧ ws' = ws := by
  cases s with
  | version v =>
    obtain ⟨text⟩ := v
    obtain rfl : text = "proto3" := by simpa [Statement.isWellFormed] using hs
    exact wrapped_yields .version (version_yields σ ws)
  | importing i => exact wrapped_yields .importing (importing_yields σ hs ws)
  | package p => exact wrapped_yields .package (package_yields σ hs ws)
  | option o => exact wrapped_yields .option (option_yields σ opts hs ws)
  | field f => exact wrapped_yields .field (field_yields σ opts hs (fits_first h) ws)
  | mapField f => exact wrapped_yields .mapField (mapField_yields σ opts hs ws)
  | enumField f => exact wrapped_yields .enumField (enumField_yields σ opts hs ws)
  | reserved r => exact wrapped_yields .reserved (reserved_yields σ hs ws)

/-! ## Comments around elements -/

theorem yields_pending_bind {α : Type} {f : List Token → Reading α}
    {Q : α → List String → Prop} (h : Yields (f []) ws Q) : Yields (pending >>= f) ws Q := by
  intro r hr
  refine pending_sat.bind ?_
  rintro _ _ ⟨rfl, rfl⟩
  rw [hr.queue]
  exact h _ hr

theorem setPending_yields (ws : List String) : Yields (setPending []) ws fun _ ws' => ws' = ws := by
  intro r hr
  refine (setPending_sat []).mono ?_
  rintro _ _ rfl
  exact ⟨ws, ⟨hr.whole, hr.text, hr.rounds, rfl⟩, rfl⟩

section
variable (hb : (front ws).head? ≠ some '/')
include hb

theorem commentsAhead_yields : Yields commentsAhead ws fun cs ws' => cs = [] ∧ ws' = ws := by
  refine (peek_bare rfl hb).bind ?_
  rintro _ _ rfl
  refine yields_pending_bind ((setPending_yields _).bind ?_)
  rintro _ _ rfl
  exact yields_pure ⟨rfl, rfl⟩

theorem commentBehind_yields (place : Position) :
    Yields (commentBehind place) ws fun c ws' => c = none ∧ ws' = ws := by
  refine yields_pending_bind ((setPending_yields _).bind ?_)
  rintro _ _ rfl
  refine (peek_bare rfl hb).bind ?_
  rintro _ _ rfl
  exact yields_pending_bind (yields_pure ⟨rfl, rfl⟩)

theorem attach_yields (x : Extent) : Yields (attach [] { extent := x }) ws fun a ws' =>
    a = ({ extent := x }, []) ∧ ws' = ws := by
  refine (commentBehind_yields hb _).bind ?_
  rintro _ _ ⟨rfl, rfl⟩
  exact yields_pure ⟨rfl, rfl⟩

/-- The element is read with no comments around it. -/
theorem element_yields (opts : Options) {body : Scope → Reading Body} (keep : Bool)
    {p : Production} {vs : List String} {P : Element → Prop}
    (h : Yields (declaration opts body p) vs fun e ws' =>
      (P e ∧ ∃ x : Extent, e.notes? = some { extent := x }) ∧ ws' = ws) :
    Yields (element opts body keep [] p) vs fun es ws' => (∃ e, es = [e] ∧ P e) ∧ ws' = ws := by
  refine h.bind ?_
  rintro e _ ⟨⟨he, x, hx⟩, rfl⟩
  rw [hx]
  refine (attach_yields hb x).bind ?_
  rintro ⟨_, _⟩ _ ⟨⟨rfl, rfl⟩, rfl⟩
  refine yields_pure ⟨⟨e, ?_, he⟩, rfl⟩
  cases e with
  | statement s notes => 
    obtain rfl := Option.some.inj hx
    cases keep <;> rfl
  | block head es curly notes =>
    obtain rfl := Option.some.inj hx
    cases keep <;> rfl
  | comment c => cases hx
  | fragment f => cases hx
  | file v es => cases hx

end

end Grammar

end ProtoIdl
