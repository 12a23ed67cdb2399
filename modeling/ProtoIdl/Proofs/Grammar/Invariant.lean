import ProtoIdl.Proofs.Grammar.Optional
import ProtoIdl.Proofs.Grammar.Reading
/-!
# Invariants of reading

Every reader of the grammar is put together from a few steps: reading a token, putting it back,
looking at it, refusing it. So what these steps keep every reader keeps. A token is put back or
refused only directly after it was read, so an `Invariant` comes in two strengths: `holds` for any
reader, and `fresh` for one that has just read a token. `Reading.Keeps I x` says that `x` keeps it,
and `Reading.Heeds I x` that it does so directly after a token was read.

The readers are gone through once, in the order of the grammar. Those of bodies also claim queued
comments, and keep invariants that do not depend on the queue.
-/
namespace ProtoIdl

/-- A property of readers that reading keeps, and a property of the failures that come about. -/
structure Invariant where
  holds : Reader → Prop
  /-- What holds besides of a reader that has just read a token. -/
  fresh : Reader → Prop
  failure : Failure → Prop
  next {r : Reader} {mode : Mode} (hm : mode.comments = false) (h : holds r) : fresh (r.next mode)
  holds_of_fresh {r : Reader} (h : fresh r) : holds r
  putBack {r r' : Reader} (h : fresh r) (hr : r.putBack = .ok r') : holds r'
  unexpected {r : Reader} (expected : String) (h : fresh r) : failure (r.unexpected expected)
  misuse {r : Reader} {m : Misuse} (h : fresh r) (hr : r.putBack = .error m) : failure (.misuse m)
  outOfRounds : failure .outOfRounds

/-- The invariant does not depend on the comments queued. -/
def Invariant.Queueless (I : Invariant) : Prop :=
  ∀ (r : Reader) (ts : List Token), I.holds r →
    I.holds { r with stream := { r.stream with pending := ts } }

namespace Reading

variable {α β σ : Type} {I : Invariant}

/-- Where the invariant holds the step keeps it, or fails as the invariant says. -/
def Keeps (I : Invariant) (x : Reading α) : Prop :=
  ∀ r, I.holds r → Sat x r (fun _ r' => I.holds r') I.failure

/-- The same directly after a token was read, when that token may be put back or refused. -/
def Heeds (I : Invariant) (x : Reading α) : Prop :=
  ∀ r, I.fresh r → Sat x r (fun _ r' => I.holds r') I.failure

theorem Keeps.heeds {x : Reading α} (h : Keeps I x) : Heeds I x :=
  fun r hr => h r (I.holds_of_fresh hr)

theorem Keeps.bind {x : Reading α} {f : α → Reading β} (hx : Keeps I x)
    (hf : ∀ a, Keeps I (f a)) : Keeps I (x >>= f) :=
  fun r hr => (hx r hr).bind fun a r' hr' => hf a r' hr'

theorem keeps_pure (a : α) : Keeps I (pure a) := fun _ hr => sat_pure hr

theorem keeps_outOfRounds : Keeps I (throw .outOfRounds : Reading α) :=
  fun _ _ => sat_throw I.outOfRounds

theorem keeps_get_bind {f : Reader → Reading β} (hf : ∀ r, Keeps I (f r)) : Keeps I (get >>= f) :=
  fun r hr => sat_get.bind fun _ _ ⟨ha, hr'⟩ => ha ▸ hr' ▸ hf r r hr

theorem keeps_next_bind {mode : Mode} (hm : mode.comments = false) {f : Kind → Reading β}
    (hf : ∀ k, Heeds I (f k)) : Keeps I (next mode >>= f) :=
  fun _ hr => (next_sat mode).bind fun k _ ⟨_, hr'⟩ => hf k _ (hr' ▸ I.next hm hr)

theorem keeps_next {mode : Mode} (hm : mode.comments = false) : Keeps I (next mode) :=
  fun _ hr => (next_sat mode).mono fun _ _ ⟨_, hr'⟩ => hr' ▸ I.holds_of_fresh (I.next hm hr)

theorem keeps_text : Keeps I text := fun _ hr => text_sat.mono fun _ _ ⟨_, hr'⟩ => hr' ▸ hr

theorem keeps_position : Keeps I position :=
  fun _ hr => position_sat.mono fun _ _ ⟨_, hr'⟩ => hr' ▸ hr

theorem keeps_pending : Keeps I pending :=
  fun _ hr => pending_sat.mono fun _ _ ⟨_, hr'⟩ => hr' ▸ hr

theorem heeds_text_bind {f : String → Reading β} (hf : ∀ w, Heeds I (f w)) :
    Heeds I (text >>= f) :=
  fun _ hr => text_sat.bind fun w _ ⟨_, hr'⟩ => hf w _ (hr' ▸ hr)

theorem heeds_position_bind {f : Position → Reading β} (hf : ∀ p, Heeds I (f p)) :
    Heeds I (position >>= f) :=
  fun _ hr => position_sat.bind fun p _ ⟨_, hr'⟩ => hf p _ (hr' ▸ hr)

theorem heeds_reject (expected : String) : Heeds I (reject expected : Reading α) :=
  fun _ hr => reject_sat (I.unexpected expected hr)

theorem heeds_reject_bind (expected : String) {f : α → Reading β} :
    Heeds I (reject expected >>= f) :=
  fun _ hr => (reject_sat (Q := fun _ _ => False) (I.unexpected expected hr)).bind
    fun _ _ h => h.elim

theorem heeds_putBack : Heeds I putBack := by
  intro r hr
  refine sat_get.bind ?_
  rintro _ r ⟨rfl, rfl⟩
  split
  · next r' hr' => exact sat_set (I.putBack hr hr')
  · next m hm => exact sat_throw (I.misuse hr hm)

theorem heeds_putBack_bind {f : Unit → Reading β} (hf : ∀ a, Keeps I (f a)) :
    Heeds I (putBack >>= f) :=
  fun r hr => (heeds_putBack r hr).bind fun a r' hr' => hf a r' hr'

theorem keeps_peek {mode : Mode} (hm : mode.comments = false) : Keeps I (peek mode) :=
  keeps_next_bind hm fun k => heeds_putBack_bind fun _ => keeps_pure k

theorem keeps_expect {mode : Mode} (hm : mode.comments = false) (kind : Kind)
    (expected : String) : Keeps I (expect mode kind expected) := by
  refine keeps_next_bind hm fun k => ?_
  split
  · exact keeps_text.heeds
  · exact heeds_reject expected

theorem keeps_expectDelimiter (d : Delimiter) (expected : String) :
    Keeps I (expectDelimiter d expected) :=
  (keeps_expect rfl _ _).bind fun _ => keeps_pure ()

theorem keeps_expectKeyword (k : Keyword) : Keeps I (expectKeyword k) :=
  (keeps_expect rfl _ _).bind fun _ => keeps_position

theorem keeps_expectIdent (expected : String) : Keeps I (expectIdent expected) :=
  keeps_expect rfl _ _

theorem keeps_setPending (hq : I.Queueless) (ts : List Token) : Keeps I (setPending ts) :=
  fun r hr => (setPending_sat ts).mono fun _ _ hr' => hr' ▸ hq r ts hr

theorem keeps_accept (d : Delimiter) : Keeps I (accept d) := by
  refine keeps_next_bind rfl fun k => ?_
  split
  · exact (keeps_pure true).heeds
  · exact heeds_putBack_bind fun _ => keeps_pure false

theorem keeps_optionally (k : Keyword) {f : Option Position → Reading β}
    (hf : ∀ p, Keeps I (f p)) : Keeps I (optionally k f) := by
  refine keeps_next_bind rfl fun kind => heeds_position_bind fun first => ?_
  split
  · exact (hf _).heeds
  · exact heeds_putBack_bind fun _ => hf none

theorem keeps_repeatAtMost {round : σ → Reading (Round σ α)} (h : ∀ s, Keeps I (round s)) (n : Nat)
    (s : σ) : Keeps I (repeatAtMost round n s) := by
  intro r hr
  refine sat_repeatAtMost (I := fun _ r => I.holds r) (fun s r hr => ?_) I.outOfRounds n s hr
  refine (h s r hr).mono ?_
  rintro (s | a) r hr <;> exact hr

theorem keeps_repeatFrom {s : σ} {round : σ → Reading (Round σ α)} (h : ∀ s, Keeps I (round s)) :
    Keeps I (repeatFrom s round) :=
  keeps_get_bind fun r => keeps_repeatAtMost h r.rounds s

end Reading

namespace Grammar

open Reading

variable {I : Invariant}

/-! ## Names and constants -/

theorem keeps_dotted (name : String) : Keeps I (dotted name) := by
  refine keeps_repeatFrom fun name => (keeps_accept _).bind fun b => ?_
  cases b with
  | true => exact (keeps_expectIdent _).bind fun _ => keeps_pure _
  | false => exact keeps_pure _

theorem keeps_fullIdent : Keeps I fullIdent :=
  (keeps_expectIdent _).bind fun first => keeps_position.bind fun _ =>
    (keeps_dotted first).bind fun _ => keeps_pure _

theorem keeps_messageType : Keeps I messageType := by
  refine (keeps_accept _).bind fun b => ?_
  cases b with
  | true => exact keeps_position.bind fun _ => keeps_fullIdent.bind fun _ => keeps_pure _
  | false => exact keeps_fullIdent

theorem keeps_fieldType : Keeps I fieldType := by
  refine keeps_next_bind rfl fun kind => heeds_text_bind fun word => ?_
  split
  · exact (keeps_position.bind fun _ => keeps_pure _).heeds
  · split
    · exact heeds_putBack_bind fun _ => keeps_messageType
    · exact heeds_reject _

theorem keeps_optionName : Keeps I optionName := by
  refine keeps_next_bind rfl fun kind => ?_
  split
  · exact (keeps_text.bind fun w => keeps_dotted w).heeds
  · exact (keeps_fullIdent.bind fun name => (keeps_expectDelimiter _ _).bind fun _ =>
      keeps_dotted _).heeds
  · exact heeds_reject _

theorem keeps_constant? (curly : Bool) : Keeps I (constant? curly) := by
  refine keeps_next_bind rfl fun kind => heeds_position_bind fun start => ?_
  split
  · exact (keeps_text.bind fun w => keeps_pure _).heeds
  · split
    case h_1 => exact heeds_putBack_bind fun _ => keeps_fullIdent.bind fun _ => keeps_pure _
    case h_4 =>
      split
      · exact heeds_putBack_bind fun _ => keeps_pure _
      · exact heeds_reject _
    case h_5 => exact heeds_reject _
    -- behind either sign
    all_goals
      refine (keeps_text.bind fun sign => keeps_next_bind rfl fun kind => ?_).heeds
      split
      · exact (keeps_text.bind fun w => keeps_pure _).heeds
      · exact (keeps_text.bind fun w => keeps_pure _).heeds
      · exact heeds_reject _

section
variable {nested : Reading Endpoint} (hn : Keeps I nested)
include hn

theorem keeps_endpointField : Keeps I (endpointField nested) := by
  refine keeps_fullIdent.bind fun name => keeps_next_bind rfl fun kind => ?_
  have hend (constant : String) : Keeps I
      (do return { name := name.1, constant, extent := ⟨name.2, ← position⟩ : EndpointField }) :=
    keeps_position.bind fun _ => keeps_pure _
  split
  · exact heeds_putBack_bind fun _ => hn.bind fun e => hend _
  · refine ((keeps_constant? true).bind fun a => ?_).heeds
    split
    · exact hend _
    · exact hn.bind fun e => hend _
  · exact heeds_reject_bind _

theorem keeps_binding : Keeps I (binding nested) :=
  keeps_position.bind fun _ => (keeps_accept _).bind fun _ => hn.bind fun _ =>
    keeps_position.bind fun _ => keeps_pure _

end

theorem keeps_endpointAtMost (depth : Nat) : Keeps I (endpointAtMost depth) := by
  induction depth with
  | zero => exact keeps_outOfRounds
  | succ depth ih =>
    refine (keeps_expectDelimiter _ _).bind fun _ => keeps_repeatFrom fun e =>
      keeps_next_bind rfl fun kind => ?_
    split
    · exact (keeps_pure _).heeds
    · exact ((keeps_binding ih).bind fun _ => (keeps_accept _).bind fun _ => keeps_pure _).heeds
    · exact heeds_putBack_bind fun _ => (keeps_endpointField ih).bind fun _ =>
        (keeps_accept _).bind fun _ => keeps_pure _

theorem keeps_endpoint : Keeps I endpoint := keeps_get_bind fun _ => keeps_endpointAtMost _

theorem keeps_stringList : Keeps I stringList := by
  refine (keeps_expectDelimiter _ _).bind fun _ => keeps_repeatFrom fun items =>
    (keeps_peek rfl).bind fun kind => ?_
  split
  · exact (keeps_next rfl).bind fun _ => keeps_pure _
  · refine (keeps_expect rfl _ _).bind fun item => (keeps_peek rfl).bind fun kind => ?_
    split
    · exact (keeps_next rfl).bind fun _ => keeps_pure _
    · exact keeps_pure _

theorem keeps_literalValue {nested : Reading Entries} (hn : Keeps I nested) :
    Keeps I (literalValue nested) := by
  refine (keeps_peek rfl).bind fun kind => ?_
  split
  · exact keeps_stringList.bind fun _ => keeps_pure _
  · refine (keeps_constant? true).bind fun a => ?_
    split
    · exact keeps_pure _
    · exact hn.bind fun _ => keeps_pure _

theorem keeps_entriesAtMost (depth : Nat) : Keeps I (entriesAtMost depth) := by
  induction depth with
  | zero => exact keeps_outOfRounds
  | succ depth ih =>
    refine (keeps_expectDelimiter _ _).bind fun _ => keeps_repeatFrom fun entries =>
      (keeps_expectIdent _).bind fun name => (keeps_expectDelimiter _ _).bind fun _ =>
        (keeps_literalValue ih).bind fun value => keeps_next_bind rfl fun kind => ?_
    split
    · refine ((keeps_peek rfl).bind fun kind => ?_).heeds
      split
      · exact (keeps_next rfl).bind fun _ => keeps_pure _
      · exact keeps_pure _
    · exact (keeps_pure _).heeds
    · exact heeds_putBack_bind fun _ => keeps_pure _

theorem keeps_literal : Keeps I literal :=
  keeps_get_bind fun _ => (keeps_entriesAtMost _).bind fun _ => keeps_pure _

/-! ## Statements -/

theorem keeps_finish (start : Position) : Keeps I (finish start) :=
  (keeps_expectDelimiter _ _).bind fun _ => keeps_position.bind fun _ => keeps_pure _

theorem keeps_noted {α : Type} (item : α) (start : Position) :
    Keeps I (do return { item, notes := ← finish start : Noted α }) :=
  (keeps_finish start).bind fun _ => keeps_pure _

theorem keeps_version : Keeps I version := by
  refine (keeps_expectKeyword _).bind fun start => (keeps_expectDelimiter _ _).bind fun _ =>
    (keeps_expect rfl _ _).bind fun quote => keeps_next_bind rfl fun _ => heeds_text_bind fun word => ?_
  split
  · exact heeds_reject_bind _
  · refine (keeps_next_bind rfl fun kind => heeds_text_bind fun closing => ?_).heeds
    split
    · exact heeds_reject_bind _
    · exact (keeps_noted _ start).heeds

theorem heeds_importBehind (visibility : Visibility) (start : Position) (kind : Kind) :
    Heeds I (importBehind visibility start kind) := by
  unfold importBehind
  split
  · exact heeds_reject_bind _
  · exact heeds_text_bind fun location => (keeps_noted _ start).heeds

theorem keeps_importing : Keeps I importing := by
  rw [importing_eq]
  refine (keeps_expectKeyword _).bind fun start => keeps_next_bind rfl fun kind => ?_
  split
  · exact heeds_importBehind _ start kind
  · exact (keeps_next_bind rfl fun kind => heeds_importBehind _ start kind).heeds

theorem keeps_package : Keeps I package :=
  (keeps_expectKeyword _).bind fun start => keeps_fullIdent.bind fun _ => keeps_noted _ start

theorem keeps_option (opts : Options) : Keeps I (option opts) := by
  refine (keeps_expectKeyword _).bind fun start => keeps_optionName.bind fun name =>
    (keeps_expectDelimiter _ _).bind fun _ => (keeps_constant? _).bind fun a => ?_
  split
  · exact keeps_noted _ start
  · exact keeps_endpoint.bind fun _ => keeps_noted _ start

theorem keeps_setting (opts : Options) : Keeps I (setting opts) := by
  refine keeps_optionName.bind fun name => (keeps_expectDelimiter _ _).bind fun _ =>
    (keeps_constant? _).bind fun a => ?_
  split
  · exact keeps_pure _
  · exact keeps_literal.bind fun _ => keeps_pure _

theorem keeps_settings (opts : Options) : Keeps I (settings opts) := by
  refine (keeps_accept _).bind fun b => ?_
  cases b with
  | false => exact keeps_pure _
  | true =>
    refine (keeps_setting opts).bind fun first => keeps_repeatFrom fun settings =>
      keeps_next_bind rfl fun kind => ?_
    split
    · exact (keeps_pure _).heeds
    · exact ((keeps_setting opts).bind fun _ => keeps_pure _).heeds
    · exact heeds_reject _

theorem keeps_fieldNumber : Keeps I fieldNumber := by
  refine keeps_next_bind rfl fun kind => heeds_text_bind fun number => ?_
  split
  · exact (keeps_pure _).heeds
  · exact heeds_reject _

theorem keeps_field (opts : Options) : Keeps I (field opts) := by
  rw [field_eq]
  exact keeps_optionally _ fun first => keeps_fieldType.bind fun type =>
    (keeps_expectIdent _).bind fun name => (keeps_expectDelimiter _ _).bind fun _ =>
      keeps_fieldNumber.bind fun number => (keeps_settings opts).bind fun _ =>
        (keeps_finish _).bind fun _ => keeps_pure _

theorem keeps_keyType : Keeps I keyType := by
  refine keeps_next_bind rfl fun kind => heeds_text_bind fun word => ?_
  split
  · exact (keeps_pure _).heeds
  · exact heeds_reject _

theorem keeps_mapField (opts : Options) : Keeps I (mapField opts) :=
  (keeps_expectKeyword _).bind fun start => (keeps_expectDelimiter _ _).bind fun _ =>
    keeps_keyType.bind fun _ => (keeps_expectDelimiter _ _).bind fun _ =>
      keeps_fieldType.bind fun _ => (keeps_expectDelimiter _ _).bind fun _ =>
        (keeps_expectIdent _).bind fun _ => (keeps_expectDelimiter _ _).bind fun _ =>
          keeps_fieldNumber.bind fun _ => (keeps_settings opts).bind fun _ => keeps_noted _ start

theorem keeps_enumField (opts : Options) : Keeps I (enumField opts) := by
  refine (keeps_expectIdent _).bind fun name => keeps_position.bind fun start =>
    (keeps_expectDelimiter _ _).bind fun _ => keeps_next_bind rfl fun kind =>
      heeds_text_bind fun number => ?_
  split
  · exact heeds_reject_bind _
  · exact ((keeps_settings opts).bind fun _ => keeps_noted _ start).heeds

theorem keeps_range : Keeps I range := by
  refine (keeps_expect rfl _ _).bind fun first => keeps_next_bind rfl fun kind => ?_
  split
  · refine (keeps_next_bind rfl fun kind => ?_).heeds
    split
    · exact (keeps_text.bind fun _ => keeps_pure _).heeds
    · exact (keeps_text.bind fun _ => keeps_pure _).heeds
    · exact heeds_reject _
  · exact heeds_putBack_bind fun _ => keeps_pure _

theorem keeps_ranges : Keeps I ranges := by
  refine keeps_range.bind fun first => keeps_repeatFrom fun ranges =>
    (keeps_accept _).bind fun b => ?_
  cases b with
  | true => exact keeps_range.bind fun _ => keeps_pure _
  | false => exact keeps_pure _

theorem keeps_reservedNamesRound (names : List String) : Keeps I (reservedNamesRound names) := by
  refine (keeps_expect rfl _ _).bind fun name => (keeps_accept _).bind fun b => ?_
  cases b <;> exact keeps_pure _

theorem keeps_reservedNames : Keeps I reservedNames := keeps_repeatFrom keeps_reservedNamesRound

/-- The first name is read in any case, so the invariant may come to hold with it. -/
theorem sat_reservedNames {r : Reader} (hk : (r.next .string).token.kind = .stringLit)
    (h : I.holds (r.next .string)) : Sat reservedNames r (fun _ r' => I.holds r') I.failure := by
  have hname : Sat (expect .string .stringLit "fieldName") r (fun _ r' => I.holds r') I.failure := by
    refine sat_run_bind (run_next .string r) ?_
    rw [if_pos hk]
    exact keeps_text _ h
  have hround : Sat (reservedNamesRound []) r (fun _ r' => I.holds r') I.failure :=
    hname.bind fun name r' hr' => ((keeps_accept _).bind fun b => by
      cases b <;> exact keeps_pure _ : Keeps I _) r' hr'
  refine sat_get.bind ?_
  rintro _ r ⟨rfl, rfl⟩
  refine hround.bind ?_
  rintro (names | names) r' hr'
  · refine sat_repeatAtMost (I := fun _ r => I.holds r) (fun names r hr => ?_) I.outOfRounds _ _ hr'
    refine (keeps_reservedNamesRound names r hr).mono ?_
    rintro (names | names) r hr <;> exact hr
  · exact sat_pure hr'

theorem keeps_reserved : Keeps I reserved := by
  refine (keeps_expectKeyword _).bind fun start => (keeps_peek rfl).bind fun kind => ?_
  split
  · exact keeps_reservedNames.bind fun _ => keeps_noted _ start
  · exact keeps_ranges.bind fun _ => keeps_noted _ start

/-! ## Bodies -/

theorem keeps_rpcType : Keeps I rpcType := by
  rw [rpcType_eq]
  exact (keeps_expectDelimiter _ _).bind fun _ => keeps_optionally _ fun first =>
    keeps_messageType.bind fun type => keeps_position.bind fun last =>
      (keeps_expectDelimiter _ _).bind fun _ => keeps_pure _

section
variable {body : Scope → Reading Body} (hbody : ∀ scope, Keeps I (body scope))
include hbody

theorem keeps_block (scope : Scope) (head : Head) (start : Position) :
    Keeps I (block body scope head start) :=
  (hbody scope).bind fun _ => keeps_pure _

theorem keeps_rpc : Keeps I (rpc body) := by
  refine (keeps_expectKeyword _).bind fun start => (keeps_expectIdent _).bind fun name =>
    keeps_rpcType.bind fun request => (keeps_expectKeyword _).bind fun _ =>
      keeps_rpcType.bind fun response => keeps_next_bind rfl fun kind => ?_
  split
  · exact (keeps_position.bind fun _ => keeps_pure _).heeds
  · exact heeds_putBack_bind fun _ => keeps_block hbody _ _ start
  · exact heeds_reject _

/-- A block that starts with a keyword. -/
theorem keeps_keyword_block {α : Type} (k : Keyword) {x : Reading α} (hx : Keeps I x)
    (scope : Scope) (head : α → Head) :
    Keeps I (do let start ← expectKeyword k; block body scope (head (← x)) start) :=
  (keeps_expectKeyword k).bind fun start => hx.bind fun _ => keeps_block hbody _ _ start

theorem keeps_declaration (opts : Options) (p : Production) :
    Keeps I (declaration opts body p) := by
  cases p with
  | version => exact keeps_version.bind fun _ => keeps_pure _
  | importing => exact keeps_importing.bind fun _ => keeps_pure _
  | package => exact keeps_package.bind fun _ => keeps_pure _
  | option => exact (keeps_option opts).bind fun _ => keeps_pure _
  | field => exact (keeps_field opts).bind fun _ => keeps_pure _
  | mapField => exact (keeps_mapField opts).bind fun _ => keeps_pure _
  | enumField => exact (keeps_enumField opts).bind fun _ => keeps_pure _
  | reserved => exact keeps_reserved.bind fun _ => keeps_pure _
  | oneof => exact keeps_keyword_block hbody _ (keeps_expectIdent _) _ _
  | enum => exact keeps_keyword_block hbody _ (keeps_expectIdent _) _ _
  | extend => exact keeps_keyword_block hbody _ keeps_messageType _ fun a => .extend a.1
  | message => exact keeps_keyword_block hbody _ (keeps_expectIdent _) _ _
  | service => exact keeps_keyword_block hbody _ (keeps_expectIdent _) _ _
  | rpc => exact keeps_rpc hbody

end

/-- What a round of a body does behind the comments in front of the next token. -/
def bodyBehind (opts : Options) (nested : Scope → Reading Body) (scope : Scope)
    (behindCurly : Option Comment) (elements : List Element) (comments : List Comment) :
    Reading (Round (List Element) Body) := do
  match ← peek .keyword with
  | .delimiter .rightBrace =>
    let elements :=
      if opts.keepComments then elements ++ comments.map .comment else elements
    let _ ← next .plain
    return .done { elements, behindCurly, last := ← position }
  | .delimiter .semicolon =>
    let _ ← next .plain
    return .again elements
  | kind =>
    match scope.production? kind with
    | none =>
      let _ ← nextKeyword
      reject scope.expected
    | some p =>
      let read ← element opts nested opts.keepComments comments p
      return .again (elements ++ read)

theorem bodyRound_eq (opts : Options) (nested : Scope → Reading Body) (scope : Scope)
    (behindCurly : Option Comment) (elements : List Element) :
    bodyRound opts nested scope behindCurly elements =
      commentsAhead >>= bodyBehind opts nested scope behindCurly elements := rfl

section
variable (hq : I.Queueless)
include hq

theorem keeps_commentsAhead : Keeps I commentsAhead :=
  (keeps_peek rfl).bind fun _ => keeps_pending.bind fun _ => (keeps_setPending hq _).bind fun _ =>
    keeps_pure _

theorem keeps_commentBehind (place : Position) : Keeps I (commentBehind place) := by
  refine keeps_pending.bind fun _ => (keeps_setPending hq _).bind fun _ =>
    (keeps_peek rfl).bind fun _ => keeps_pending.bind fun comments => ?_
  split
  · split
    · exact (keeps_setPending hq _).bind fun _ => keeps_pure _
    · exact keeps_pure _
  · exact keeps_pure _

theorem keeps_attach (comments : List Comment) (notes : Notes) : Keeps I (attach comments notes) :=
  (keeps_commentBehind hq _).bind fun _ => keeps_pure _

theorem keeps_element {body : Scope → Reading Body} (hbody : ∀ scope, Keeps I (body scope))
    (opts : Options) (keep : Bool) (comments : List Comment) (p : Production) :
    Keeps I (element opts body keep comments p) :=
  (keeps_declaration hbody opts p).bind fun _ => (keeps_attach hq _ _).bind fun _ => keeps_pure _

theorem keeps_bodyBehind {body : Scope → Reading Body} (hbody : ∀ scope, Keeps I (body scope))
    (opts : Options) (scope : Scope) (behindCurly : Option Comment) (elements : List Element)
    (comments : List Comment) :
    Keeps I (bodyBehind opts body scope behindCurly elements comments) := by
  refine (keeps_peek rfl).bind fun kind => ?_
  split
  · exact (keeps_next rfl).bind fun _ => keeps_position.bind fun _ => keeps_pure _
  · exact (keeps_next rfl).bind fun _ => keeps_pure _
  · split
    · exact keeps_next_bind rfl fun _ => heeds_reject _
    · exact (keeps_element hq hbody _ _ _ _).bind fun _ => keeps_pure _

theorem keeps_bodyAtMost (opts : Options) (depth : Nat) (scope : Scope) :
    Keeps I (bodyAtMost opts depth scope) := by
  induction depth generalizing scope with
  | zero => exact keeps_outOfRounds
  | succ depth ih =>
    exact (keeps_expectDelimiter _ _).bind fun _ => keeps_position.bind fun _ =>
      (keeps_commentBehind hq _).bind fun behindCurly => keeps_repeatFrom fun elements =>
        (keeps_commentsAhead hq).bind fun comments => keeps_bodyBehind hq ih opts _ _ _ comments

theorem keeps_body (opts : Options) (scope : Scope) : Keeps I (body opts scope) :=
  keeps_get_bind fun _ => keeps_bodyAtMost hq opts _ scope

theorem keeps_fileRound (opts : Options) (f : File) : Keeps I (fileRound opts f) := by
  refine (keeps_commentsAhead hq).bind fun comments => (keeps_peek rfl).bind fun kind => ?_
  split
  · exact keeps_pure _
  · exact (keeps_next rfl).bind fun _ => keeps_pure _
  · split
    · exact keeps_next_bind rfl fun _ => heeds_reject _
    · exact keeps_version.bind fun v => (keeps_attach hq _ _).bind fun _ => keeps_pure _
  · split
    · exact keeps_next_bind rfl fun _ => heeds_reject _
    · exact (keeps_element hq (keeps_body hq opts) _ _ _ _).bind fun _ => keeps_pure _

theorem keeps_file (opts : Options) : Keeps I (file opts) :=
  keeps_repeatFrom (keeps_fileRound hq opts)

end

end Grammar

end ProtoIdl
