import ProtoIdl.Proofs.Grammar.Coupling
import ProtoIdl.Proofs.Grammar.Landing
import ProtoIdl.Proofs.Tree.Move
/-!
# Two runs of the grammar

Every reader of the grammar follows itself under a lawful coupling, and its answer is moved. The
readers are gone through once, in the order of the grammar. What `reserved` reads is looked at as a
string before anything tells that it is one; a coupling has to say itself what follows from that
(`Coupling.Follows`).
-/
namespace ProtoIdl

theorem Comment.ofToken_move (f : Position → Position) (t : Token) :
    ofToken (t.move f) = (ofToken t).move f := by
  simp [ofToken, move, Extent.move, Token.move]

theorem Element.notes?_move (f : Position → Position) (e : Element) :
    (e.move f).notes? = e.notes?.map (Notes.move f) := by
  cases e <;> rfl

theorem Element.mapNotes_move (f : Position → Position) (e : Element) (notes : Notes) :
    (e.move f).mapNotes (fun _ => notes.move f) = (e.mapNotes fun _ => notes).move f := by
  cases e <;> rfl

namespace Grammar

/-- A body at another place. -/
def Body.move (f : Position → Position) (b : Body) : Body :=
  { elements := b.elements.map (·.move f), behindCurly := b.behindCurly.map (·.move f),
    last := f b.last }

/-- What a round has come to, at another place. -/
def Landing.move (f : Position → Position) : Landing → Landing
  | .ended comments => .ended (comments.map (Comment.move f))
  | .skipped => .skipped
  | .version comments v => .version (comments.map (Comment.move f)) (v.move id f)
  | .element comments e => .element (comments.map (Comment.move f)) (e.move f)

theorem Landing.move_id (l : Landing) : l.move id = l := by
  cases l <;> simp [move, Element.move_id]

/-- The comments in front of what a round has come to. -/
def Landing.comments : Landing → List Comment
  | .ended comments | .version comments _ | .element comments _ => comments
  | .skipped => []

/-- An element that a round has come to is a declaration; and a version comes first. -/
def Landing.noted (first : Bool) : Landing → Bool
  | .version _ _ => first
  | .element _ e => e.notes?.isSome
  | _ => true

open Reading

/-- What is reserved, where a token of the kind `k` comes next. -/
def reservedAs (k : Kind) : Reading Reserved := do
  if k = .stringLit then return { names := ← reservedNames }
  else return { ranges := ← ranges }

/-- What is reserved, behind the keyword. -/
def reservedItem : Reading Reserved := peek .string >>= reservedAs

theorem reserved_eq : reserved = (expectKeyword .kwReserved >>= fun start =>
    reservedItem >>= fun item => do return { item, notes := ← finish start }) := by
  unfold reserved reservedItem reservedAs
  refine bind_congr fun start => ?_
  rw [bind_assoc]
  refine bind_congr fun kind => ?_
  by_cases h : kind = .stringLit
  · simp only [h, if_true, bind_assoc]
  · simp only [h, if_false, bind_assoc]

/-- A quote that a string, or what would be one, starts with is no number. -/
theorem run_ranges_quote {r : Reader} {t : Token} {ts : List Token} {d e : Cursor} {x : Char}
    {more : List Char} (h : r.Stands) (hf : r.edge.Finds .string t ts d e) (hd : d.rest = x :: more)
    (hx : Scan.isQuote x = true) :
    ranges (r.looked t ts d) = .error (.unexpected (String.ofList [x]) "intLit" d.position)
      ((r.looked t ts d).after (.make (.delimiter .quote) [x] d.position) [] d (d.advance 1)) := by
  have hlooked : (r.looked t ts d).Stands := h.looked hf.passes.reaches
  have hquote := Reader.next_of_finds (m := .number) rfl (hf.quote h.edge_whole hd hx rfl)
    hlooked.edge_rounds
  have hexpect : expect .number .intLit "intLit" (r.looked t ts d) =
      .error (.unexpected (String.ofList [x]) "intLit" d.position)
        ((r.looked t ts d).after (.make (.delimiter .quote) [x] d.position) [] d (d.advance 1)) := by
    rw [expect, run_bind (run_next .number _), hquote, if_neg nofun]
    rfl
  rw [ranges, range]
  exact run_bind_error (run_bind_error hexpect)

end Grammar

/-- A coupling that knows what to do with what is reserved, behind the keyword. -/
structure Coupling.Follows (P : Coupling) : Prop extends Lawful P where
  reserved {r r' : Reader} : P.rel true r r' → r.token.kind = .keyword .kwReserved →
    P.Outcome true id (Grammar.reservedItem r) (Grammar.reservedItem r')

namespace Grammar

open Reading Coupling

variable {P : Coupling} {b : Bool} (hP : P.Lawful)
include hP

/-! ## Names and constants -/

theorem couples_dotted (name : String) : Couples P true true id (dotted name) (dotted name) := by
  refine couples_repeatFrom hP (χ := id) (fun name => ?_) name
  exact couples_accept_bind hP _
    ((couples_expectIdent hP _).bind hP fun _ => couples_pure rfl) (couples_pure rfl)

theorem couples_fullIdent : Couples P b true (Prod.map id P.move) fullIdent fullIdent :=
  (couples_expectIdent hP _).bind hP fun first => (couples_position hP).bind hP fun _ =>
    (couples_dotted hP first).bind hP fun _ => couples_pure rfl

theorem couples_messageType : Couples P b true (Prod.map id P.move) messageType messageType :=
  couples_accept_bind hP _
    ((couples_position hP).bind hP fun _ => (couples_fullIdent hP).bind hP fun _ => couples_pure rfl)
    (couples_fullIdent hP)

theorem couples_fieldType : Couples P b true (Prod.map id P.move) fieldType fieldType := by
  refine couples_next_bind hP rfl (.inl rfl) fun kind => .text_bind hP fun word => ?_
  split
  · next h => exact .keep hP (h.1 ▸ nofun) ((couples_position hP).bind hP fun _ => couples_pure rfl)
  · split
    · exact .putBack_bind hP (.inl rfl) (couples_messageType hP)
    · exact .reject hP _

theorem couples_optionName : Couples P b true id optionName optionName := by
  refine couples_next_bind hP rfl (.inl rfl) fun kind => ?_
  split
  · exact .keep hP nofun ((couples_text hP).bind hP fun w => couples_dotted hP w)
  · exact .keep hP nofun ((couples_fullIdent hP).bind hP fun name =>
      (couples_expectDelimiter hP _ _).bind hP fun _ => couples_dotted hP _)
  · exact .reject hP _

theorem couples_constant? (curly : Bool) :
    Couples P true true (Prod.map id P.move) (constant? curly) (constant? curly) := by
  refine couples_next_bind hP rfl (.inr fun _ => ⟨_, rfl⟩) fun kind => .position_bind hP fun start => ?_
  split
  · next h =>
    have hk : kind ≠ .illegal := by
      rintro rfl
      cases h
    exact .keep hP hk ((couples_text hP).bind hP fun _ => couples_pure rfl)
  · split
    case h_1 =>
      exact .putBack_bind hP (.inr nofun) ((couples_fullIdent hP).bind hP fun _ => couples_pure rfl)
    case h_4 =>
      split
      · exact .putBack_bind hP (.inr nofun) (couples_pure rfl)
      · exact .reject hP _
    case h_5 => exact .reject hP _
    -- behind either sign
    all_goals
      refine .keep hP nofun ((couples_text hP).bind hP fun sign =>
        couples_next_bind hP rfl (.inr fun _ => ⟨_, rfl⟩) fun kind => ?_)
      split
      · exact .keep hP nofun ((couples_text hP).bind hP fun _ => couples_pure rfl)
      · exact .keep hP nofun ((couples_text hP).bind hP fun _ => couples_pure rfl)
      · exact .reject hP _

section
variable {nested nested' : Reading Endpoint}
  (hn : ∀ b, Couples P b true (Endpoint.move P.move) nested nested')
include hn

theorem couples_endpointField : Couples P b true (EndpointField.move P.move) (endpointField nested)
    (endpointField nested') := by
  refine (couples_fullIdent hP).bind hP fun name =>
    couples_next_bind hP rfl (.inl rfl) fun kind => ?_
  have hend (constant : String) : Couples P true true (EndpointField.move P.move)
      (do return { name := name.1, constant, extent := ⟨name.2, ← position⟩ : EndpointField })
      (do return { name := name.1, constant, extent := ⟨P.move name.2, ← position⟩ : EndpointField }) :=
    (couples_position hP).bind hP fun _ => couples_pure rfl
  split
  · refine .putBack_bind hP (.inl rfl) ((hn true).bind hP fun e => ?_)
    rw [Endpoint.constant_move]
    exact hend e.constant
  · refine .keep hP nofun ((couples_constant? hP true).bind hP fun a => ?_)
    rcases a with ⟨_ | constant, start⟩
    · refine (hn true).bind hP fun e => ?_
      rw [Endpoint.constant_move]
      exact hend e.constant
    · exact hend constant
  · exact .reject_bind hP _

theorem couples_binding :
    Couples P true true (Binding.move P.move) (binding nested) (binding nested') := by
  have hend (start : Position) : Couples P true true (Binding.move P.move)
      (nested >>= fun e => do return { fields := e.fields, extent := ⟨start, ← position⟩ : Binding })
      (nested' >>= fun e => do
        return { fields := e.fields, extent := ⟨P.move start, ← position⟩ : Binding }) :=
    (hn true).bind hP fun _ => (couples_position hP).bind hP fun _ => couples_pure rfl
  exact (couples_position hP).bind hP fun start => couples_accept_bind hP _ (hend start) (hend start)

theorem couples_endpointRound (e : Endpoint) :
    Couples P true true (Round.map (Endpoint.move P.move) (Endpoint.move P.move))
      (endpointRound nested e) (endpointRound nested' (e.move P.move)) := by
  refine couples_next_bind hP rfl (.inl rfl) fun kind => ?_
  split
  · exact .keep hP nofun (couples_pure rfl)
  · refine .keep hP nofun ((couples_binding hP hn).bind hP fun _ =>
      couples_accept_bind hP _ (couples_pure ?_) (couples_pure ?_))
    all_goals simp [Round.map, Endpoint.move]
  · refine .putBack_bind hP (.inl rfl) ((couples_endpointField hP hn).bind hP fun _ =>
      couples_accept_bind hP _ (couples_pure ?_) (couples_pure ?_))
    all_goals simp [Round.map, Endpoint.move]

end

theorem couples_endpointAtMost {depth depth' : Nat} (h : P.loose ∨ depth ≤ depth') (b : Bool) :
    Couples P b true (Endpoint.move P.move) (endpointAtMost depth) (endpointAtMost depth') := by
  induction depth generalizing depth' b with
  | zero => exact couples_outOfRounds hP
  | succ depth ih =>
    cases depth' with
    | zero =>
      have hl := h.resolve_right (Nat.not_succ_le_zero depth)
      exact couples_exhausted hP hl (keeps_endpointAtMost _)
    | succ depth' =>
      exact (couples_expectDelimiter hP _ _).bind hP fun _ =>
        couples_repeatFrom hP
          (couples_endpointRound hP (ih (h.imp_right Nat.le_of_succ_le_succ))) {}

theorem couples_endpoint : Couples P b true (Endpoint.move P.move) endpoint endpoint :=
  couples_rounds_bind hP fun _ _ h => couples_endpointAtMost hP h b

theorem couples_stringList : Couples P b true id stringList stringList := by
  refine (couples_expectDelimiter hP _ _).bind hP fun _ =>
    couples_repeatFrom hP (χ := id) (fun items => couples_peek_bind hP (.inl rfl) fun kind => ?_) []
  split
  · next h => exact h ▸ ahead_next_bind hP _ (couples_pure rfl)
  · refine ((couples_expect hP (k := .stringLit) rfl nofun _).bind hP fun item =>
      couples_peek_bind hP (.inl rfl) fun kind => ?_).ahead
    split
    · next h => exact h ▸ ahead_next_bind hP _ (couples_pure rfl)
    · exact (couples_pure rfl).ahead

section
variable {nested nested' : Reading Entries} (hn : ∀ b, Couples P b true id nested nested')
include hn

theorem couples_literalValue :
    Couples P true true id (literalValue nested) (literalValue nested') := by
  refine couples_peek_bind hP (.inl rfl) fun kind => Couples.ahead ?_
  split
  · exact (couples_stringList hP).bind hP fun _ => couples_pure rfl
  · refine (couples_constant? hP true).bind hP fun a => ?_
    rcases a with ⟨_ | constant, start⟩
    · exact (hn true).bind hP fun _ => couples_pure rfl
    · exact couples_pure rfl

theorem couples_entriesRound (entries : Entries) : Couples P true true (Round.map id id)
    (entriesRound nested entries) (entriesRound nested' entries) := by
  refine (couples_expectIdent hP _).bind hP fun name => (couples_expectDelimiter hP _ _).bind hP
    fun _ => (couples_literalValue hP hn).bind hP fun value =>
      couples_next_bind hP rfl (.inl rfl) fun kind => ?_
  split
  · refine .keep hP nofun (couples_peek_bind hP (.inl rfl) fun kind => ?_)
    split
    · next h => exact h ▸ ahead_next_bind hP _ (couples_pure rfl)
    · exact (couples_pure rfl).ahead
  · exact .keep hP nofun (couples_pure rfl)
  · exact .putBack_bind hP (.inl rfl) (couples_pure rfl)

end

theorem couples_entriesAtMost {depth depth' : Nat} (h : P.loose ∨ depth ≤ depth') (b : Bool) :
    Couples P b true id (entriesAtMost depth) (entriesAtMost depth') := by
  induction depth generalizing depth' b with
  | zero => exact couples_outOfRounds hP
  | succ depth ih =>
    cases depth' with
    | zero =>
      have hl := h.resolve_right (Nat.not_succ_le_zero depth)
      exact couples_exhausted hP hl (keeps_entriesAtMost _)
    | succ depth' =>
      exact (couples_expectDelimiter hP _ _).bind hP fun _ =>
        couples_repeatFrom hP (χ := id)
          (couples_entriesRound hP (ih (h.imp_right Nat.le_of_succ_le_succ))) .nil

theorem couples_literal : Couples P b true id literal literal :=
  couples_rounds_bind hP (f := fun n => Literal.group <$> entriesAtMost n)
    (g := fun n => Literal.group <$> entriesAtMost n) fun _ _ h =>
      (couples_entriesAtMost hP h b).bind hP fun _ => couples_pure rfl

/-! ## Statements -/

theorem couples_finish (start : Position) :
    Couples P b true (Notes.move P.move) (finish start) (finish (P.move start)) :=
  (couples_expectDelimiter hP _ _).bind hP fun _ => (couples_position hP).bind hP fun _ =>
    couples_pure rfl

theorem couples_noted {α : Type} {g : α → α} (item : α) (start : Position) :
    Couples P b true (Noted.move g P.move) (do return { item, notes := ← finish start : Noted α })
      (do return { item := g item, notes := ← finish (P.move start) : Noted α }) :=
  (couples_finish hP start).bind hP fun _ => couples_pure rfl

theorem couples_version : Couples P b true (Noted.move id P.move) version version := by
  refine (couples_expectKeyword hP _).bind hP fun start =>
    (couples_expectDelimiter hP _ _).bind hP fun _ =>
      (couples_expect hP (k := .delimiter .quote) rfl nofun _).bind hP fun quote =>
        couples_next_bind hP rfl (.inl rfl) fun _ =>
          .word_bind hP (v := "proto3".toList) rfl rfl ?_ fun word hw => ?_
  · refine couples_next_bind hP rfl (.inl rfl) fun kind => .text_bind hP fun closing => ?_
    dsimp only [id]
    split
    · exact .reject_bind hP _
    · next h => exact .keep hP (fun hk => h (.inl (hk ▸ nofun))) (couples_noted hP _ start)
  · have hword : word ≠ "proto3" := hw
    simp only [if_pos hword]
    exact .reject_bind hP _

theorem fresh_importBehind {m : Mode} (visibility : Visibility) (start : Position) (kind : Kind) :
    CouplesFresh P m kind b true (Noted.move id P.move) (importBehind visibility start kind)
      (importBehind visibility (P.move start) kind) := by
  unfold importBehind
  split
  · exact .reject_bind hP _
  · next h =>
    exact .keep hP (fun hk => h (hk ▸ nofun)) ((couples_text hP).bind hP fun location =>
      couples_noted hP _ start)

theorem couples_importing : Couples P b true (Noted.move id P.move) importing importing := by
  rw [importing_eq]
  refine (couples_expectKeyword hP _).bind hP fun start =>
    couples_next_bind hP rfl (.inr fun _ => ⟨_, rfl⟩) fun kind => ?_
  split
  · exact fresh_importBehind hP _ start kind
  · next h =>
    refine .keep hP (fun hk => h (hk ▸ rfl)) (couples_next_bind hP rfl (.inr fun _ => ⟨_, rfl⟩)
      fun kind => fresh_importBehind hP _ start kind)

theorem couples_package : Couples P b true (Noted.move id P.move) package package :=
  (couples_expectKeyword hP _).bind hP fun start => (couples_fullIdent hP).bind hP fun _ =>
    couples_noted hP _ start

theorem couples_option (opts : Options) :
    Couples P b true (Noted.move (OptionSetting.move P.move) P.move) (option opts) (option opts) := by
  refine (couples_expectKeyword hP _).bind hP fun start => (couples_optionName hP).bind hP fun name =>
    (couples_expectDelimiter hP _ _).bind hP fun _ => (couples_constant? hP _).bind hP fun a => ?_
  rcases a with ⟨_ | constant, place⟩
  · exact (couples_endpoint hP).bind hP fun _ => couples_noted hP _ start
  · exact couples_noted hP _ start

theorem couples_setting (opts : Options) : Couples P b true id (setting opts) (setting opts) := by
  refine (couples_optionName hP).bind hP fun name => (couples_expectDelimiter hP _ _).bind hP fun _ =>
    (couples_constant? hP _).bind hP fun a => ?_
  rcases a with ⟨_ | constant, place⟩
  · exact (couples_literal hP).bind hP fun _ => couples_pure rfl
  · exact couples_pure rfl

theorem couples_settings (opts : Options) :
    Couples P true true id (settings opts) (settings opts) := by
  refine couples_accept_bind hP _ ?_ (couples_pure rfl)
  refine (couples_setting hP opts).bind hP fun first =>
    couples_repeatFrom hP (χ := id) (fun settings => couples_next_bind hP rfl (.inl rfl) fun kind => ?_)
      [first]
  split
  · exact .keep hP nofun (couples_pure rfl)
  · exact .keep hP nofun ((couples_setting hP opts).bind hP fun _ => couples_pure rfl)
  · exact .reject hP _

theorem couples_fieldNumber : Couples P b true id fieldNumber fieldNumber := by
  refine couples_next_bind hP rfl (.inr fun _ => ⟨_, rfl⟩) fun kind => .text_bind hP fun number => ?_
  split
  · next h => exact .keep hP (h.1 ▸ nofun) (couples_pure rfl)
  · exact .reject hP _

theorem couples_field (opts : Options) :
    Couples P b true (Noted.move id P.move) (field opts) (field opts) := by
  rw [field_eq]
  refine couples_optionally hP _ fun b first => (couples_fieldType hP).bind hP fun type =>
    (couples_expectIdent hP _).bind hP fun name => (couples_expectDelimiter hP _ _).bind hP fun _ =>
      (couples_fieldNumber hP).bind hP fun number => (couples_settings hP opts).bind hP fun _ => ?_
  cases first with
  | none => exact (couples_finish hP _).bind hP fun _ => couples_pure rfl
  | some first => exact (couples_finish hP _).bind hP fun _ => couples_pure rfl

theorem couples_keyType : Couples P b true id keyType keyType := by
  refine couples_next_bind hP rfl (.inl rfl) fun kind => .text_bind hP fun word => ?_
  split
  · next h => exact .keep hP (h.1 ▸ nofun) (couples_pure rfl)
  · exact .reject hP _

theorem couples_mapField (opts : Options) :
    Couples P b true (Noted.move id P.move) (mapField opts) (mapField opts) :=
  (couples_expectKeyword hP _).bind hP fun start => (couples_expectDelimiter hP _ _).bind hP fun _ =>
    (couples_keyType hP).bind hP fun _ => (couples_expectDelimiter hP _ _).bind hP fun _ =>
      (couples_fieldType hP).bind hP fun _ => (couples_expectDelimiter hP _ _).bind hP fun _ =>
        (couples_expectIdent hP _).bind hP fun _ => (couples_expectDelimiter hP _ _).bind hP fun _ =>
          (couples_fieldNumber hP).bind hP fun _ => (couples_settings hP opts).bind hP fun _ =>
            couples_noted hP _ start

theorem couples_enumField (opts : Options) :
    Couples P b true (Noted.move id P.move) (enumField opts) (enumField opts) := by
  refine (couples_expectIdent hP _).bind hP fun name => (couples_position hP).bind hP fun start =>
    (couples_expectDelimiter hP _ _).bind hP fun _ =>
      couples_next_bind hP rfl (.inr fun _ => ⟨_, rfl⟩) fun kind => .text_bind hP fun number => ?_
  split
  · exact .reject_bind hP _
  · next h =>
    exact .keep hP (fun hk => h (.inl (hk ▸ nofun))) ((couples_settings hP opts).bind hP fun _ =>
      couples_noted hP _ start)

theorem couples_range : Couples P true true id range range := by
  refine (couples_expect hP (k := .intLit) rfl nofun _).bind hP fun first =>
    couples_next_bind hP rfl (.inl rfl) fun kind => ?_
  split
  · next h =>
    refine .keep hP (h ▸ nofun) (couples_next_bind hP rfl (.inr fun _ => ⟨_, rfl⟩) fun kind => ?_)
    split
    · exact .keep hP nofun ((couples_text hP).bind hP fun _ => couples_pure rfl)
    · exact .keep hP nofun ((couples_text hP).bind hP fun _ => couples_pure rfl)
    · exact .reject hP _
  · exact .putBack_bind hP (.inl rfl) (couples_pure rfl)

theorem couples_ranges : Couples P true true id ranges ranges := by
  refine (couples_range hP).bind hP fun first => couples_repeatFrom hP (χ := id) (fun ranges => ?_) _
  exact couples_accept_bind hP _ ((couples_range hP).bind hP fun _ => couples_pure rfl)
    (couples_pure rfl)

theorem couples_reservedNames : Couples P true true id reservedNames reservedNames := by
  refine couples_repeatFrom hP (χ := id) (fun names => ?_) _
  exact (couples_expect hP (k := .stringLit) rfl nofun _).bind hP fun name =>
    couples_accept_bind hP _ (couples_pure rfl) (couples_pure rfl)

theorem couples_reservedAs (k : Kind) : Couples P true true id (reservedAs k) (reservedAs k) := by
  unfold reservedAs
  split
  · exact (couples_reservedNames hP).bind hP fun _ => couples_pure rfl
  · exact (couples_ranges hP).bind hP fun _ => couples_pure rfl

theorem keeps_reservedItem : Keeps P.lost reservedItem :=
  (keeps_peek rfl).bind fun k => (couples_reservedAs hP k).1

omit hP in
theorem couples_reserved (hP : P.Follows) :
    Couples P b true (Noted.move id P.move) reserved reserved := by
  have hL := hP.toLawful
  have hitem (start : Position) : Keeps P.lost (reservedItem >>= fun item => do
      return { item, notes := ← finish start : Noted Reserved }) :=
    (keeps_reservedItem hL).bind fun item => keeps_noted item start
  rw [reserved_eq]
  refine ⟨(keeps_expectKeyword _).bind hitem, fun r r' hr => ?_⟩
  refine outcome_bind hL ((couples_expectKeyword hL _).2 r r' hr) (expectKeyword_sat _ r)
    (fun start q _ => hitem start q) fun start q q' hk hq => ?_
  exact outcome_bind hL (hP.reserved hq hk) (sat_trivial _ q)
    (fun item q _ => keeps_noted item start q) fun item q q' _ => (couples_noted hL item start).2 q q'

/-! ## Bodies -/

theorem couples_rpcType : Couples P b true (RpcType.move P.move) rpcType rpcType := by
  rw [rpcType_eq]
  refine (couples_expectDelimiter hP _ _).bind hP fun _ => couples_optionally hP _ fun b first =>
    (couples_messageType hP).bind hP fun type => (couples_position hP).bind hP fun last =>
      (couples_expectDelimiter hP _ _).bind hP fun _ => couples_pure ?_
  cases first <;> rfl

section
variable {body body' : Scope → Reading Body}
  (hbody : ∀ b scope, Couples P b true (Body.move P.move) (body scope) (body' scope))
include hbody

theorem couples_block (scope : Scope) (head : Head) (start : Position) :
    Couples P b true (Element.move P.move) (block body scope head start)
      (block body' scope (head.move P.move) (P.move start)) := by
  refine (hbody b scope).bind hP fun _ => couples_pure ?_
  rw [Element.move, Element.moveAll_eq]
  rfl

theorem couples_rpc : Couples P b true (Element.move P.move) (rpc body) (rpc body') := by
  refine (couples_expectKeyword hP _).bind hP fun start => (couples_expectIdent hP _).bind hP fun name =>
    (couples_rpcType hP).bind hP fun request => (couples_expectKeyword hP _).bind hP fun _ =>
      (couples_rpcType hP).bind hP fun response => couples_next_bind hP rfl (.inl rfl) fun kind => ?_
  split
  · exact .keep hP nofun ((couples_position hP).bind hP fun _ => couples_pure rfl)
  · exact .putBack_bind hP (.inl rfl) (couples_block hP hbody _ _ start)
  · exact .reject hP _

/-- A block that starts with a keyword. -/
theorem couples_keyword_block {α : Type} (k : Keyword) {x : Reading α} {φ : α → α}
    (hx : Couples P true true φ x x) (scope : Scope) (head : α → Head)
    (hhead : ∀ a, head (φ a) = (head a).move P.move) :
    Couples P b true (Element.move P.move)
      (do let start ← expectKeyword k; block body scope (head (← x)) start)
      (do let start ← expectKeyword k; block body' scope (head (← x)) start) := by
  refine (couples_expectKeyword hP k).bind hP fun start => hx.bind hP fun a => ?_
  rw [hhead]
  exact couples_block hP hbody _ _ start

omit hP in
theorem couples_declaration (hP : P.Follows) (opts : Options) (p : Production) :
    Couples P b true (Element.move P.move) (declaration opts body p) (declaration opts body' p) := by
  have hL := hP.toLawful
  cases p with
  | version => exact (couples_version hL).bind hL fun _ => couples_pure rfl
  | importing => exact (couples_importing hL).bind hL fun _ => couples_pure rfl
  | package => exact (couples_package hL).bind hL fun _ => couples_pure rfl
  | option => exact (couples_option hL opts).bind hL fun _ => couples_pure rfl
  | field => exact (couples_field hL opts).bind hL fun _ => couples_pure rfl
  | mapField => exact (couples_mapField hL opts).bind hL fun _ => couples_pure rfl
  | enumField => exact (couples_enumField hL opts).bind hL fun _ => couples_pure rfl
  | reserved => exact (couples_reserved hP).bind hL fun _ => couples_pure rfl
  | oneof => exact couples_keyword_block hL hbody _ (couples_expectIdent hL _) _ _ fun _ => rfl
  | enum => exact couples_keyword_block hL hbody _ (couples_expectIdent hL _) _ _ fun _ => rfl
  | extend =>
    exact couples_keyword_block hL hbody _ (couples_messageType hL) _ (fun a => .extend a.1)
      fun _ => rfl
  | message => exact couples_keyword_block hL hbody _ (couples_expectIdent hL _) _ _ fun _ => rfl
  | service => exact couples_keyword_block hL hbody _ (couples_expectIdent hL _) _ _ fun _ => rfl
  | rpc => exact couples_rpc hL hbody

end

/-! ## Comments -/

omit hP in
theorem map_ofToken_move (f : Position → Position) (ts : List Token) :
    (ts.map (Token.move f)).map Comment.ofToken =
      (ts.map Comment.ofToken).map (Comment.move f) := by
  simp [Comment.ofToken_move]

/-- What is done with the comments in front of the next token; a loose coupling has none. -/
theorem couples_commentsAhead_bind {γ δ : Type} {b₁ : Bool} {ψ : γ → δ}
    {f : List Comment → Reading γ} {g : List Comment → Reading δ}
    (hkeeps : ∀ comments, Keeps P.lost (f comments))
    (hf : ∀ comments, (P.loose → comments = []) →
      Couples P b b₁ ψ (f comments) (g (comments.map (Comment.move P.move)))) :
    Couples P b b₁ ψ (commentsAhead >>= f) (commentsAhead >>= g) := by
  simp only [commentsAhead, bind_assoc, pure_bind]
  refine couples_peek_bind hP (.inl rfl) fun _ => Couples.ahead (couples_pending_bind hP
    (fun ts => (keeps_setPending hP.queueless _).bind fun _ => hkeeps _) fun ts hts => ?_)
  rw [map_ofToken_move]
  have hnil : P.loose → ([] : List Token) = [] := fun _ => rfl
  refine (couples_setPending hP hnil).bind hP fun _ => hf _ fun hl => ?_
  rw [hts hl, List.map_nil]

theorem couples_commentBehind (place : Position) :
    Couples P b b (Option.map (Comment.move P.move)) (commentBehind place)
      (commentBehind (P.move place)) := by
  have hdrop (ts : List Token) (hts : P.loose → ts = []) : (ts.map (Token.move P.move)).dropWhile
      (fun t => decide (t.position.offset < (P.move place).offset)) =
        (ts.dropWhile fun t => decide (t.position.offset < place.offset)).map (Token.move P.move) := by
    by_cases hl : P.loose
    · rw [hts hl, List.map_nil, List.dropWhile_nil, List.dropWhile_nil, List.map_nil]
    · simp [List.dropWhile_map, Function.comp_def, hP.offset_lt _ _ hl]
  refine couples_pending_bind hP (fun ts => (keeps_setPending hP.queueless _).bind fun _ =>
    (keeps_peek rfl).bind fun _ => keeps_pending.bind ?claim) fun ts hts => ?ahead
  case' ahead =>
    rw [hdrop ts hts]
    refine (couples_setPending hP fun hl => by rw [hts hl, List.dropWhile_nil]).bind hP fun _ =>
      couples_peek_bind hP (.inl rfl) fun _ =>
        (couples_pending_bind hP ?again fun ts hts => ?claimed).ahead
  case claimed =>
    cases ts with
    | nil => exact couples_pure rfl
    | cons t rest =>
      have hl : ¬ P.loose := fun hl => List.cons_ne_nil t rest (hts hl)
      simp only [List.map_cons, Token.position_move, hP.line_eq hl, Comment.ofToken_move]
      split
      · exact (couples_setPending hP fun h => absurd h hl).bind hP fun _ => couples_pure rfl
      · exact couples_pure rfl
  -- what is claimed is taken off the queue
  all_goals
    intro ts
    split
    · split
      · exact (keeps_setPending hP.queueless _).bind fun _ => keeps_pure _
      · exact keeps_pure _
    · exact keeps_pure _

theorem couples_attach {comments : List Comment} (hc : P.loose → comments = []) (notes : Notes) :
    Couples P b b (Prod.map (Notes.move P.move) (List.map (Comment.move P.move)))
      (attach comments notes) (attach (comments.map (Comment.move P.move)) (notes.move P.move)) := by
  refine (couples_commentBehind hP _).bind hP fun inline => couples_pure ?_
  by_cases hl : P.loose
  · rw [hc hl]
    rfl
  · have habove (c : Comment) : isAbove (P.move notes.extent.start) (c.move P.move) =
        isAbove notes.extent.start c := by
      simp [isAbove, Comment.move, Extent.move, hP.line_lt _ _ hl]
    simp [Notes.move, Extent.move, List.filter_map, Function.comp_def, habove]

theorem couples_attached (keep : Bool) {comments : List Comment} (hc : P.loose → comments = [])
    (e : Element) (he : e.notes?.isSome = true) : Couples P b b (List.map (Element.move P.move))
      (attached keep comments e)
      (attached keep (comments.map (Comment.move P.move)) (e.move P.move)) := by
  obtain ⟨notes, hn⟩ := Option.isSome_iff_exists.1 he
  have hn' : (e.move P.move).notes? = some (notes.move P.move) := by
    rw [Element.notes?_move, hn]
    rfl
  rw [attached, attached, hn, hn']
  refine (couples_attach hP hc notes).bind hP fun a => couples_pure ?_
  cases keep <;> simp [Element.mapNotes_move, Element.move]

/-! ## Elements and bodies -/

omit hP in
theorem declaration_noted (opts : Options) (body : Scope → Reading Body) (p : Production)
    (r : Reader) : Sat (declaration opts body p) r (fun e _ => e.notes?.isSome = true) fun _ => True := by
  have hstatement {α : Type} (wrap : α → Statement) (x : Reading (Noted α)) :
      Sat (do return statement wrap (← x)) r (fun e _ => e.notes?.isSome = true) fun _ => True :=
    (sat_trivial x r).bind fun _ _ _ => sat_pure rfl
  have hblock (scope : Scope) (head : Head) (start : Position) (r : Reader) :
      Sat (block body scope head start) r (fun e _ => e.notes?.isSome = true) fun _ => True :=
    (sat_trivial _ r).bind fun _ _ _ => sat_pure rfl
  have hkeyword {α : Type} (k : Keyword) (x : Reading α) (scope : Scope) (head : α → Head) :
      Sat (do let start ← expectKeyword k; block body scope (head (← x)) start) r
        (fun e _ => e.notes?.isSome = true) fun _ => True :=
    (sat_trivial _ r).bind fun _ _ _ => (sat_trivial _ _).bind fun _ _ _ => hblock _ _ _ _
  cases p with
  | oneof | enum | message | service => exact hkeyword _ _ _ _
  | extend => exact hkeyword _ _ _ fun a : String × Position => .extend a.1
  | rpc =>
    refine (sat_trivial _ _).bind fun start _ _ => (sat_trivial _ _).bind fun name _ _ =>
      (sat_trivial _ _).bind fun request _ _ => (sat_trivial _ _).bind fun _ _ _ =>
        (sat_trivial _ _).bind fun response _ _ => (sat_trivial _ _).bind fun kind _ _ => ?_
    split
    · exact (sat_trivial _ _).bind fun _ _ _ => sat_pure rfl
    · exact (sat_trivial _ _).bind fun _ _ _ => hblock _ _ _ _
    · exact reject_sat trivial
  | _ => exact hstatement _ _

section
variable {body body' : Scope → Reading Body}
  (hbody : ∀ b scope, Couples P b true (Body.move P.move) (body scope) (body' scope))
include hbody

omit hP in
theorem couples_element (hP : P.Follows) (opts : Options) (keep : Bool) {comments : List Comment}
    (hc : P.loose → comments = []) (p : Production) : Couples P b true (List.map (Element.move P.move))
      (element opts body keep comments p)
      (element opts body' keep (comments.map (Comment.move P.move)) p) := by
  rw [element_eq, element_eq]
  exact (couples_declaration hbody hP opts p).bind_of hP.toLawful (declaration_noted opts body p)
    fun e he => couples_attached hP.toLawful keep hc e he

omit hP in
theorem couples_bodyRound (hP : P.Follows) (opts : Options) (scope : Scope)
    (behindCurly : Option Comment) (elements : List Element) :
    Couples P true true (Round.map (List.map (Element.move P.move)) (Body.move P.move))
      (bodyRound opts body scope behindCurly elements)
      (bodyRound opts body' scope (behindCurly.map (Comment.move P.move))
        (elements.map (Element.move P.move))) := by
  have hL := hP.toLawful
  have hkeeps := keeps_bodyBehind hL.queueless (fun scope => (hbody true scope).1) opts scope
    behindCurly elements
  rw [bodyRound_eq, bodyRound_eq]
  refine couples_commentsAhead_bind hL hkeeps fun comments hc =>
    couples_peek_bind hL (.inr rfl) fun kind => ?_
  split
  · refine ahead_next_bind hL _ ((couples_position hL).bind hL fun last => couples_pure ?_)
    cases opts.keepComments <;> simp [Round.map, Body.move, Element.move]
  · exact ahead_next_bind hL _ (couples_pure rfl)
  · cases hp : scope.production? kind with
    | none => exact (couples_next_bind hL rfl (.inl rfl) fun _ => .reject hL _).ahead
    | some p =>
      dsimp only
      refine Couples.ahead ((couples_element hbody hP opts _ hc p).bind hL fun read =>
        couples_pure ?_)
      simp [Round.map]

end

omit hP in
theorem couples_bodyAtMost (hP : P.Follows) (opts : Options) {depth depth' : Nat}
    (h : P.loose ∨ depth ≤ depth') (b : Bool) (scope : Scope) :
    Couples P b true (Body.move P.move) (bodyAtMost opts depth scope)
      (bodyAtMost opts depth' scope) := by
  have hL := hP.toLawful
  induction depth generalizing depth' b scope with
  | zero => exact couples_outOfRounds hL
  | succ depth ih =>
    cases depth' with
    | zero =>
      have hl := h.resolve_right (Nat.not_succ_le_zero depth)
      exact couples_exhausted hL hl (keeps_bodyAtMost hL.queueless opts _ scope)
    | succ depth' =>
      have hnested := ih (h.imp_right Nat.le_of_succ_le_succ)
      exact (couples_expectDelimiter hL _ _).bind hL fun _ =>
        (couples_position hL).bind hL fun place => (couples_commentBehind hL place).bind hL
          fun behindCurly => couples_repeatFrom hL
            (couples_bodyRound hnested hP opts scope behindCurly) []

omit hP in
theorem couples_body (hP : P.Follows) (opts : Options) (scope : Scope) :
    Couples P b true (Body.move P.move) (body opts scope) (body opts scope) :=
  couples_rounds_bind hP.toLawful fun _ _ h => couples_bodyAtMost hP opts h b scope

/-! ## Files -/

/-- What is refused on the left may be anything on the right. -/
theorem couples_refuse {α β : Type} {φ : α → β} {b₁ : Bool} (expected : String) {y : Reading β} :
    Couples P b b₁ φ (nextKeyword >>= fun _ => reject expected) y :=
  ⟨keeps_next_bind rfl fun _ => heeds_reject expected, fun _ _ hr => hP.refused expected rfl hr⟩

omit hP in
/-- A reader that takes a version follows one that does not. -/
theorem couples_fileNext (hP : P.Follows) (opts : Options) {first first' : Bool}
    (hfirst : first = true → first' = true) :
    Couples P b b (Landing.move P.move) (fileNext opts first) (fileNext opts first') := by
  have hL := hP.toLawful
  have hnil : P.loose → ([] : List Token) = [] := fun _ => rfl
  refine (couples_pending hL).bind hL fun ts =>
    (couples_setPending hL hnil).bind hL fun _ =>
      couples_peek_bind hL (.inr rfl) fun kind => ?_
  rw [map_ofToken_move]
  split
  · exact (couples_pure rfl).ahead
  · exact ahead_next_bind hL _ ((couples_pure rfl).relax hL)
  · cases first with
    | true =>
      rw [if_pos rfl, if_pos (hfirst rfl)]
      exact Couples.ahead (Couples.relax hL ((couples_version hL).bind hL fun v => couples_pure rfl))
    | false => exact (couples_refuse hL _).ahead
  · cases hp : Scope.file.production? kind with
    | none => exact (couples_refuse hL _).ahead
    | some p =>
      dsimp only
      exact Couples.ahead (Couples.relax hL ((couples_declaration
        (fun b => couples_body (b := b) hP opts) hP opts p).bind hL fun e => couples_pure rfl))

omit hP in
theorem couples_fileHead (hP : P.Follows) (opts : Options) {first first' : Bool}
    (hfirst : first = true → first' = true) :
    Couples P b b (Landing.move P.move) (fileHead opts first) (fileHead opts first') :=
  couples_peek_bind hP.toLawful (.inl rfl) fun _ => (couples_fileNext hP opts hfirst).ahead

omit hP in
/-- What a round comes to can be attached, and it is no version unless that was asked for. -/
theorem fileNext_noted (opts : Options) (first : Bool) (r : Reader) :
    Sat (fileNext opts first) r (fun l _ => l.noted first = true) fun _ => True :=
  fileNext_sat rfl rfl (fun _ => rfl) rfl
    (fun hfirst => (sat_trivial _ _).mono fun _ _ _ => hfirst) fun p => declaration_noted opts _ p _

omit hP in
/-- Where no comments are queued, none are in front of what a round comes to. -/
theorem fileNext_comments (opts : Options) (first : Bool) (r : Reader) :
    Sat (fileNext opts first) r (fun l _ => r.stream.pending = [] → l.comments = []) fun _ => True := by
  have hnone (h : r.stream.pending = []) : r.stream.pending.map Comment.ofToken = [] := by
    rw [h, List.map_nil]
  exact fileNext_sat rfl rfl (fun _ => hnone) (fun _ => rfl)
    (fun _ => (sat_trivial _ _).mono fun _ _ _ => hnone)
    fun _ => (sat_trivial _ _).mono fun _ _ _ => hnone

omit hP in
theorem keeps_fileTail {I : Invariant} (hq : I.Queueless) (f : File) (l : Landing) :
    Keeps I (fileTail f l) := by
  cases l with
  | ended comments => exact keeps_pure _
  | skipped => exact keeps_pure _
  | version comments v => exact (keeps_attach hq _ _).bind fun _ => keeps_pure _
  | element comments e =>
    exact ((keeps_attach hq _ _).bind fun _ => keeps_pure _).bind fun _ => keeps_pure _

theorem couples_fileTail (f : File) (l : Landing) {first : Bool}
    (hl : l.noted first = true) (hc : P.loose → l.comments = []) :
    Couples P b b (Round.map (File.move P.move) (File.move P.move)) (fileTail f l)
      (fileTail (f.move P.move) (l.move P.move)) := by
  cases l with
  | ended comments => exact couples_pure (by simp [Round.map, File.move, Element.move])
  | skipped => exact couples_pure rfl
  | version comments v =>
    refine (couples_attach hP hc v.notes).bind hP fun a => couples_pure ?_
    simp [Round.map, File.move, Element.move, Noted.move]
  | element comments e =>
    refine (couples_attached hP true hc e hl).bind hP fun read => couples_pure ?_
    simp [Round.map, File.move]

omit hP in
theorem couples_fileRound (hP : P.Follows) (opts : Options) (f : File) :
    Couples P b b (Round.map (File.move P.move) (File.move P.move)) (fileRound opts f)
      (fileRound opts (f.move P.move)) := by
  have hfresh : isFresh (f.move P.move) = isFresh f := by simp [isFresh, File.move]
  have hL := hP.toLawful
  rw [fileRound_eq, fileRound_eq, hfresh, fileHead, bind_assoc, bind_assoc]
  refine couples_peek_bind hL (.inl rfl) fun _ => Couples.ahead
    ⟨(couples_fileNext (b := b) hP opts id).1.bind fun l => keeps_fileTail hL.queueless f l,
      fun r r' hr => ?_⟩
  have hlanded := (fileNext_noted opts (isFresh f) r).and (fileNext_comments opts (isFresh f) r)
  exact outcome_bind hL ((couples_fileNext hP opts id).2 r r' hr) (hlanded.mono_error fun _ _ => trivial)
    (fun l q _ => keeps_fileTail hL.queueless f l q) fun l q q' hl =>
      (couples_fileTail hL f l hl.1 fun hloose => hl.2 (hL.bare hloose hr)).2 q q'

omit hP in
theorem couples_file (hP : P.Follows) (opts : Options) :
    Couples P b b (File.move P.move) (file opts) (file opts) :=
  couples_repeatFrom hP.toLawful (couples_fileRound hP opts) {}

end Grammar

end ProtoIdl
