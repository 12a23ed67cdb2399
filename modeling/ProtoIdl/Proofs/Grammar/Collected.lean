import ProtoIdl.Proofs.Grammar.Invariant
import ProtoIdl.Proofs.Tree.Node
/-!
# What a file is put together from

The bodies of a file only collect: each statement in it is the answer of the reader of one statement,
the head of each block is made of what was read in front of its body, and each comment was queued
before. So what the readers of statements and of heads answer at every place, and what an invariant says
of the queue, is known of the whole tree. An invariant that allows for this may
speak of the queued comments, as long as it does not miss those that are claimed (`Invariant.Sheds`).
Main statement: `Grammar.file_collects`.
-/
namespace ProtoIdl

/-- The invariant is kept when queued comments are claimed. -/
def Invariant.Sheds (I : Invariant) : Prop :=
  ∀ (r : Reader) (ts : List Token), I.holds r → ts ⊆ r.stream.pending →
    I.holds { r with stream := { r.stream with pending := ts } }

theorem Invariant.Queueless.sheds {I : Invariant} (h : I.Queueless) : I.Sheds :=
  fun r ts hr _ => h r ts hr

/-- A node that is a statement satisfies `S`, and one that is a block has a head that satisfies `H`. -/
def Node.States (S : Statement → Prop) (H : Head → Prop) : Node → Prop
  | .element (.statement s _) => S s
  | .element (.block head _ _ _) => H head
  | _ => True

/-- Every statement of the elements satisfies `S`, at whatever depth, every head `H`, and every comment
`C`. -/
structure Element.Collects (S : Statement → Prop) (H : Head → Prop) (C : Comment → Prop)
    (es : List Element) : Prop where
  nodes : ∀ e ∈ es, Node.All (Node.States S H) (.element e)
  comments : ∀ k ∈ Element.commentsAll es, C k

namespace Element

variable {S : Statement → Prop} {H : Head → Prop} {C : Comment → Prop} {es ds : List Element}

theorem collects_nil : Collects S H C [] where
  nodes := by simp
  comments := by simp

theorem Collects.append (h : Collects S H C es) (hd : Collects S H C ds) : Collects S H C (es ++ ds) where
  nodes := List.forall_mem_append.2 ⟨h.nodes, hd.nodes⟩
  comments := by
    rw [commentsAll_append]
    exact List.forall_mem_append.2 ⟨h.comments, hd.comments⟩

theorem collects_comment {k : Comment} (h : C k) : Collects S H C [.comment k] where
  nodes := List.forall_mem_singleton.2 (.intro trivial (List.forall_mem_nil _))
  comments := by simpa [Element.comments] using h

theorem collects_comments {ks : List Comment} (h : ∀ k ∈ ks, C k) :
    Collects S H C (ks.map .comment) := by
  induction ks with
  | nil => exact collects_nil
  | cons k ks ih =>
    obtain ⟨hk, hks⟩ := List.forall_mem_cons.1 h
    exact (collects_comment hk).append (ih hks)

/-- Below a statement there are no elements. -/
theorem all_states_part {s : Statement} : ∀ m ∈ s.parts, Node.All (Node.States S H) m := by
  have hfield (f : EndpointField) : Node.All (Node.States S H) (.endpointField f) :=
    .intro trivial (List.forall_mem_nil _)
  intro m hm
  unfold Statement.parts at hm
  split at hm
  · rcases List.mem_append.1 hm with hm | hm
    · obtain ⟨f, -, rfl⟩ := List.mem_map.1 hm
      exact hfield f
    · obtain ⟨b, -, rfl⟩ := List.mem_map.1 hm
      refine .intro trivial fun m hm => ?_
      obtain ⟨f, -, rfl⟩ := List.mem_map.1 hm
      exact hfield f
  · cases hm

theorem collects_statement {s : Statement} {notes : Notes} (hs : S s)
    (hn : ∀ k ∈ notes.comments, C k) : Collects S H C [.statement s notes] where
  nodes := List.forall_mem_singleton.2 (.intro hs all_states_part)
  comments := by simpa [Element.comments] using hn

theorem collects_block {head : Head} {curly : Option Comment} {notes : Notes} (hhead : H head)
    (h : Collects S H C es) (hcurly : ∀ k ∈ curly, C k) (hn : ∀ k ∈ notes.comments, C k) :
    Collects S H C [.block head es curly notes] where
  nodes := by
    refine List.forall_mem_singleton.2 (.intro hhead fun m hm => ?_)
    rcases List.mem_append.1 hm with hm | hm
    · -- the types in the head of an rpc
      unfold Head.parts at hm
      split at hm
      · obtain rfl | rfl : m = _ ∨ m = _ := by simpa using hm
        all_goals exact .intro trivial (List.forall_mem_nil _)
      · cases hm
    · obtain ⟨e, he, rfl⟩ := List.mem_map.1 hm
      exact h.nodes e he
  comments := by
    rw [commentsAll_cons, commentsAll_nil, List.append_nil, Element.comments]
    refine List.forall_mem_append.2 ⟨List.forall_mem_append.2 ⟨hn, fun k hk => ?_⟩, h.comments⟩
    exact hcurly k (Option.mem_toList.1 hk)

end Element

namespace Grammar

open Reading
open Element (Collects)

/-- Wherever the invariant holds, what a reader answers is a statement that satisfies `S`. -/
def Tells {α : Type} (I : Invariant) (S : Statement → Prop) (wrap : α → Statement)
    (x : Reading (Noted α)) : Prop :=
  ∀ r, I.holds r → Sat x r (fun n _ => S (wrap n.item)) fun _ => True

/-- Whatever the readers of statements answer where the invariant holds satisfies `S`. -/
structure Answers (I : Invariant) (opts : Options) (S : Statement → Prop) : Prop where
  version : Tells I S .version version
  importing : Tells I S .importing importing
  package : Tells I S .package package
  option : Tells I S .option (option opts)
  field : Tells I S .field (field opts)
  mapField : Tells I S .mapField (mapField opts)
  enumField : Tells I S .enumField (enumField opts)
  reserved : Tells I S .reserved reserved

/-- Wherever the invariant holds, what a reader answers makes a head that satisfies `H`. -/
def TellsHead {α : Type} (I : Invariant) (H : Head → Prop) (head : α → Head) (x : Reading α) : Prop :=
  ∀ r, I.holds r → Sat x r (fun a _ => H (head a)) fun _ => True

/-- The head of an rpc behind its keyword. -/
def rpcHead : Reading Rpc := do
  let name ← expectIdent "rpcName"
  let request ← rpcType
  let _ ← expectKeyword .kwReturns
  return { name, request, response := ← rpcType }

/-- The rest of an rpc behind its head: a body, or a semicolon. -/
def rpcBehind (body : Scope → Reading Body) (start : Position) (r : Rpc) : Reading Element := do
  match ← next .plain with
  | .delimiter .semicolon => return .block (.rpc r) [] none { extent := ⟨start, ← position⟩ }
  | .delimiter .leftBrace =>
    putBack
    block body .rpc (.rpc r) start
  | _ => reject "\x7b or ;"

theorem rpc_eq (body : Scope → Reading Body) : rpc body =
    (expectKeyword .kwRpc >>= fun start => rpcHead >>= rpcBehind body start) := by
  unfold rpc rpcHead
  simp only [bind_assoc, pure_bind]
  rfl

theorem keeps_rpcHead {I : Invariant} : Keeps I rpcHead :=
  (keeps_expectIdent _).bind fun _ => keeps_rpcType.bind fun _ => (keeps_expectKeyword _).bind fun _ =>
    keeps_rpcType.bind fun _ => keeps_pure _

/-- Whatever is read in front of a body where the invariant holds makes a head that satisfies `H`. -/
structure Titles (I : Invariant) (H : Head → Prop) : Prop where
  oneof : TellsHead I H .oneof (expectIdent "oneofName")
  enum : TellsHead I H .enum (expectIdent "enumName")
  extend : TellsHead I H (fun a => .extend a.1) messageType
  message : TellsHead I H .message (expectIdent "messageName")
  service : TellsHead I H .service (expectIdent "serviceName")
  rpc : TellsHead I H .rpc rpcHead

theorem titles_of_forall (I : Invariant) {H : Head → Prop} (h : ∀ head, H head) : Titles I H := by
  constructor <;> exact fun r _ => (sat_trivial _ r).mono fun _ _ _ => h _

/-- A token that starts no element is read again and refused. -/
theorem refuse_sat {α : Type} {I : Invariant} {r : Reader} {expected : String}
    {Q : α → Reader → Prop} (hr : I.holds r) :
    Sat (do let _ ← nextKeyword; reject expected) r Q I.failure := by
  refine (next_sat .keyword).bind ?_
  rintro _ _ ⟨-, rfl⟩
  exact reject_sat (I.unexpected expected (I.next rfl hr))

/-- What holds of every statement is answered. -/
theorem answers_of_forall (I : Invariant) (opts : Options) {S : Statement → Prop} (h : ∀ s, S s) :
    Answers I opts S := by
  constructor <;> exact fun r _ => (sat_trivial _ r).mono fun _ _ _ => h _

section
variable {I : Invariant} {S : Statement → Prop} {H : Head → Prop} {C : Comment → Prop} {r : Reader}
  {body : Scope → Reading Body} {opts : Options}
  (hsheds : I.Sheds) (hqueue : ∀ r, I.holds r → ∀ t ∈ r.stream.pending, C (Comment.ofToken t))

/-! ## Claiming comments -/

section
include hsheds hqueue

theorem commentsAhead_collects (hr : I.holds r) :
    Sat commentsAhead r (fun ks r' => I.holds r' ∧ ∀ k ∈ ks, C k) I.failure := by
  refine (keeps_peek rfl r hr).bind fun _ r hr => pending_sat.bind ?_
  rintro _ r ⟨rfl, rfl⟩
  refine (setPending_sat []).bind ?_
  rintro _ _ rfl
  exact sat_pure ⟨hsheds r _ hr (List.nil_subset _), List.forall_mem_map.2 (hqueue r hr)⟩

theorem commentBehind_collects (place : Position) (hr : I.holds r) :
    Sat (commentBehind place) r (fun k? r' => I.holds r' ∧ ∀ k ∈ k?, C k) I.failure := by
  refine pending_sat.bind ?_
  rintro _ r ⟨rfl, rfl⟩
  refine (setPending_sat _).bind ?_
  rintro _ _ rfl
  have hdropped := hsheds r _ hr
    (List.dropWhile_sublist fun t : Token => t.position.offset < place.offset).subset
  refine (keeps_peek rfl _ hdropped).bind fun _ r hr => pending_sat.bind ?_
  rintro _ r ⟨rfl, rfl⟩
  cases hts : r.stream.pending with
  | nil => exact sat_pure ⟨hr, by simp⟩
  | cons t ts =>
    dsimp only
    split
    · refine (setPending_sat ts).bind ?_
      rintro _ _ rfl
      refine sat_pure ⟨hsheds r ts hr (hts ▸ List.subset_cons_self t ts), ?_⟩
      rintro _ ⟨⟩
      exact hqueue r hr t (hts ▸ List.mem_cons_self)
    · exact sat_pure ⟨hr, by simp⟩

theorem attach_collects {ks : List Comment} (notes : Notes) (hks : ∀ k ∈ ks, C k)
    (hr : I.holds r) : Sat (attach ks notes) r (fun a r' => I.holds r' ∧
      (∀ k ∈ a.1.comments, C k) ∧ ∀ k ∈ a.2, C k) I.failure := by
  refine (commentBehind_collects hsheds hqueue _ hr).bind fun inline r ⟨hr, hinline⟩ => ?_
  refine sat_pure ⟨hr, List.forall_mem_append.2 ⟨fun k hk => ?_, fun k hk => ?_⟩, fun k hk => ?_⟩
  · exact hks k (List.mem_filter.1 hk).1
  · exact hinline k (Option.mem_toList.1 hk)
  · exact hks k (List.mem_filter.1 hk).1

end

/-! ## Declarations -/

/-- With whatever comments around it the element is made of what was collected. -/
def Gathers (S : Statement → Prop) (H : Head → Prop) (C : Comment → Prop) (e : Element) : Prop :=
  ∀ notes : Notes, (∀ k ∈ notes.comments, C k) → Collects S H C [e.mapNotes fun _ => notes]

theorem statement_gathers {α : Type} {wrap : α → Statement} {x : Reading (Noted α)}
    (hx : Keeps I x) (hS : Tells I S wrap x)
    (hr : I.holds r) : Sat (do return statement wrap (← x)) r
      (fun e r' => I.holds r' ∧ Gathers S H C e) I.failure :=
  ((hx r hr).and (hS r hr)).bind fun _ _ ⟨hr, hs⟩ =>
    sat_pure ⟨hr, fun _ hn => Element.collects_statement hs hn⟩

section
variable (hbody : ∀ scope r, I.holds r → Sat (body scope) r (fun b r' => I.holds r' ∧
  Collects S H C b.elements ∧ ∀ k ∈ b.behindCurly, C k) I.failure)
include hbody

theorem block_gathers (scope : Scope) {head : Head} (start : Position) (hhead : H head)
    (hr : I.holds r) :
    Sat (block body scope head start) r (fun e r' => I.holds r' ∧ Gathers S H C e) I.failure :=
  (hbody scope r hr).bind fun _ _ ⟨hr, hb, hcurly⟩ =>
    sat_pure ⟨hr, fun _ hn => Element.collects_block hhead hb hcurly hn⟩

/-- A block that starts with a keyword. -/
theorem keyword_block_gathers {α : Type} (k : Keyword) {x : Reading α} (hx : Keeps I x)
    (scope : Scope) {g : α → Head} (hH : TellsHead I H g x) (hr : I.holds r) :
    Sat (do let start ← expectKeyword k; block body scope (g (← x)) start) r
      (fun e r' => I.holds r' ∧ Gathers S H C e) I.failure :=
  (keeps_expectKeyword k r hr).bind fun start r hr =>
    ((hx r hr).and (hH r hr)).bind fun _ _ ⟨hr, hhead⟩ => block_gathers hbody scope start hhead hr

theorem rpc_gathers (hH : TellsHead I H .rpc rpcHead) (hr : I.holds r) :
    Sat (rpc body) r (fun e r' => I.holds r' ∧ Gathers S H C e) I.failure := by
  rw [rpc_eq]
  refine (keeps_expectKeyword _ r hr).bind fun start r hr =>
    ((keeps_rpcHead r hr).and (hH r hr)).bind fun head r ⟨hr, hhead⟩ => (next_sat .plain).bind ?_
  rintro kind _ ⟨-, rfl⟩
  have hfresh : I.fresh (r.next .plain) := I.next rfl hr
  split
  · refine (keeps_position _ (I.holds_of_fresh hfresh)).bind fun _ r hr => sat_pure ⟨hr, ?_⟩
    exact fun _ hn => Element.collects_block hhead Element.collects_nil (by simp) hn
  · exact (heeds_putBack _ hfresh).bind fun _ r hr => block_gathers hbody _ _ hhead hr
  · exact reject_sat (I.unexpected _ hfresh)

theorem declaration_gathers (hS : Answers I opts S) (hH : Titles I H) (p : Production)
    (hr : I.holds r) :
    Sat (declaration opts body p) r (fun e r' => I.holds r' ∧ Gathers S H C e) I.failure := by
  cases p with
  | version => exact statement_gathers keeps_version hS.version hr
  | importing => exact statement_gathers keeps_importing hS.importing hr
  | package => exact statement_gathers keeps_package hS.package hr
  | option => exact statement_gathers (keeps_option opts) hS.option hr
  | field => exact statement_gathers (keeps_field opts) hS.field hr
  | mapField => exact statement_gathers (keeps_mapField opts) hS.mapField hr
  | enumField => exact statement_gathers (keeps_enumField opts) hS.enumField hr
  | reserved => exact statement_gathers keeps_reserved hS.reserved hr
  | oneof => exact keyword_block_gathers hbody _ (keeps_expectIdent _) _ hH.oneof hr
  | enum => exact keyword_block_gathers hbody _ (keeps_expectIdent _) _ hH.enum hr
  | message => exact keyword_block_gathers hbody _ (keeps_expectIdent _) _ hH.message hr
  | service => exact keyword_block_gathers hbody _ (keeps_expectIdent _) _ hH.service hr
  | extend =>
    exact keyword_block_gathers hbody _ keeps_messageType _ (g := fun a => .extend a.1) hH.extend hr
  | rpc => exact rpc_gathers hbody hH.rpc hr

include hsheds hqueue

theorem element_collects (hS : Answers I opts S) (hH : Titles I H) (keep : Bool) {ks : List Comment} (p : Production)
    (hks : ∀ k ∈ ks, C k) (hr : I.holds r) : Sat (element opts body keep ks p) r
      (fun es r' => I.holds r' ∧ Collects S H C es) I.failure := by
  refine (declaration_gathers hbody hS hH p hr).bind fun e r ⟨hr, he⟩ =>
    (attach_collects hsheds hqueue _ hks hr).bind fun a r ⟨hr, hnotes, hstrays⟩ => ?_
  have hkept : Collects S H C (if keep then a.2.map .comment else []) := by
    split
    · exact Element.collects_comments hstrays
    · exact Element.collects_nil
  exact sat_pure ⟨hr, hkept.append (he a.1 hnotes)⟩

/-! ## Bodies and files -/

theorem bodyRound_collects (hS : Answers I opts S) (hH : Titles I H) (scope : Scope) {curly : Option Comment}
    {es : List Element} (hcurly : ∀ k ∈ curly, C k) (hes : Collects S H C es) (hr : I.holds r) :
    Sat (bodyRound opts body scope curly es) r (fun a r' => I.holds r' ∧ match a with
      | .again es => Collects S H C es
      | .done b => Collects S H C b.elements ∧ ∀ k ∈ b.behindCurly, C k) I.failure := by
  refine (commentsAhead_collects hsheds hqueue hr).bind fun ks r ⟨hr, hks⟩ =>
    (keeps_peek rfl r hr).bind fun kind r hr => ?_
  split
  · refine (keeps_next rfl r hr).bind fun _ r hr => (keeps_position r hr).bind fun _ r hr => ?_
    refine sat_pure ⟨hr, ?_, hcurly⟩
    show Collects S H C (if opts.keepComments then _ else _)
    split
    · exact hes.append (Element.collects_comments hks)
    · exact hes
  · exact (keeps_next rfl r hr).bind fun _ r hr => sat_pure ⟨hr, hes⟩
  · split
    · exact refuse_sat hr
    · exact (element_collects hsheds hqueue hbody hS hH _ _ hks hr).bind fun ds r ⟨hr, hds⟩ =>
        sat_pure ⟨hr, hes.append hds⟩

end

section
include hsheds hqueue

theorem bodyAtMost_collects (hS : Answers I opts S) (hH : Titles I H) (depth : Nat) (scope : Scope) (hr : I.holds r) :
    Sat (bodyAtMost opts depth scope) r (fun b r' => I.holds r' ∧ Collects S H C b.elements ∧
      ∀ k ∈ b.behindCurly, C k) I.failure := by
  induction depth generalizing scope r with
  | zero => exact sat_throw I.outOfRounds
  | succ depth ih =>
    refine (keeps_expectDelimiter _ _ r hr).bind fun _ r hr =>
      (keeps_position r hr).bind fun place r hr =>
        (commentBehind_collects hsheds hqueue place hr).bind fun curly r ⟨hr, hcurly⟩ => ?_
    refine sat_repeatFrom (I := fun es r => I.holds r ∧ Collects S H C es)
      ⟨hr, Element.collects_nil⟩ (fun es r ⟨hr, hes⟩ => ?_) I.outOfRounds
    refine (bodyRound_collects hsheds hqueue (fun scope _ hr => ih scope hr) hS hH scope hcurly hes
      hr).mono ?_
    rintro (es | b) r h <;> exact h

theorem body_collects (hS : Answers I opts S) (hH : Titles I H) (scope : Scope) (hr : I.holds r) :
    Sat (Grammar.body opts scope) r (fun b r' => I.holds r' ∧ Collects S H C b.elements ∧
      ∀ k ∈ b.behindCurly, C k) I.failure := by
  refine sat_get.bind ?_
  rintro _ _ ⟨rfl, rfl⟩
  exact bodyAtMost_collects hsheds hqueue hS hH _ scope hr

theorem fileRound_collects (hS : Answers I opts S) (hH : Titles I H) {f : File} (hf : Collects S H C f.elements)
    (hr : I.holds r) : Sat (fileRound opts f) r (fun a r' => match a with
      | .again g => I.holds r' ∧ Collects S H C g.elements
      | .done g => Collects S H C g.elements) I.failure := by
  refine (commentsAhead_collects hsheds hqueue hr).bind fun ks r ⟨hr, hks⟩ =>
    (keeps_peek rfl r hr).bind fun kind r hr => ?_
  split
  · refine sat_pure ?_
    dsimp only
    rw [File.elements_append]
    exact hf.append (Element.collects_comments hks)
  · exact (keeps_next rfl r hr).bind fun _ r hr => sat_pure ⟨hr, hf⟩
  · split
    · exact refuse_sat hr
    · refine ((keeps_version r hr).and (hS.version r hr)).bind fun v r ⟨hr, hv⟩ =>
        (attach_collects hsheds hqueue v.notes hks hr).bind fun a r ⟨hr, hnotes, hstrays⟩ => ?_
      exact sat_pure ⟨hr, (Element.collects_statement hv hnotes).append
        (Element.collects_comments hstrays)⟩
  · split
    · exact refuse_sat hr
    · refine (element_collects hsheds hqueue (fun scope _ hr => body_collects hsheds hqueue hS hH
        scope hr) hS hH true _ hks hr).bind fun ds r ⟨hr, hds⟩ => sat_pure ⟨hr, ?_⟩
      rw [File.elements_append]
      exact hf.append hds

/-- A file collects what the readers of statements answer, and comments that were queued. -/
theorem file_collects (hS : Answers I opts S) (hH : Titles I H) (hr : I.holds r) :
    Sat (file opts) r (fun f _ => Collects S H C f.elements) I.failure := by
  refine sat_repeatFrom (I := fun f r => I.holds r ∧ Collects S H C f.elements)
    ⟨hr, File.elements_empty ▸ Element.collects_nil⟩
    (fun f r ⟨hr, hf⟩ => (fileRound_collects hsheds hqueue hS hH hf hr).mono ?_) I.outOfRounds
  rintro (g | g) r h <;> exact h

end

end

end Grammar

end ProtoIdl
