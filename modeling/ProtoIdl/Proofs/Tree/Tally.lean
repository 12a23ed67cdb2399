import ProtoIdl.Proofs.Tree.Proper
import ProtoIdl.View.Walk
/-!
# Counting in the unordered view

The messages of a view are those of the file and those nested in them (`MessageView.all`), and the enums
are those of the file and of all its messages. A walk enters every body, the view only those of messages.
Where bodies hold what they may, this makes no difference (`nestedIn_counts`): no message, enum, service
or rpc stands in the body of anything but a file, a message or a service.
-/
namespace ProtoIdl

namespace View

open Element (AllProper)
open Grammar (Scope)

mutual
/-- A message and all that are nested in it. -/
def MessageView.all : MessageView → List MessageView
  | m@{ messages, .. } => m :: allMessages messages

/-- Messages and all that are nested in them. -/
def allMessages : List MessageView → List MessageView
  | [] => []
  | m :: rest => m.all ++ allMessages rest
end

/-- Enums and those of messages, nested messages included. -/
def allEnums (enums : List EnumView) (messages : List MessageView) : List EnumView :=
  enums ++ (allMessages messages).flatMap (·.enums)

/-- The rpcs of services. -/
def allRpcs (services : List ServiceView) : List (Block Rpc) := services.flatMap (·.rpcs)

/-- How many there are of a kind among declarations that have views, nested ones included. -/
def Nested.size (n : Nested) : NodeKind → Nat
  | .message => (allMessages n.messages).length
  | .enum => (allEnums n.enums n.messages).length
  | .service => n.services.length
  | .rpc => (allRpcs n.services).length
  | _ => 0

/-- The kinds that a summary counts. -/
def summarized : List NodeKind := [.message, .enum, .service, .rpc]

/-- How many visits there are of a kind. -/
def visitsOf (kind : NodeKind) (visits : List Visit) : Nat := visits.countP fun v => v.kind == kind

variable {kind : NodeKind} {scope : Scope} {level : Level} {body : List Element}

theorem allMessages_append (ms ns : List MessageView) :
    allMessages (ms ++ ns) = allMessages ms ++ allMessages ns := by
  induction ms with
  | nil => rfl
  | cons m rest ih => rw [List.cons_append, allMessages, allMessages, ih, List.append_assoc]

theorem Nested.size_append (m n : Nested) (kind : NodeKind) :
    (m.append n).size kind = m.size kind + n.size kind := by
  cases kind with
  | enum =>
    simp only [size, append, allEnums, allMessages_append, List.length_append, List.flatMap_append]
    omega
  | _ => simp [size, append, allRpcs, allMessages_append]

theorem Nested.size_empty (kind : NodeKind) : ({} : Nested).size kind = 0 := by
  cases kind <;> rfl

/-! ## What is never counted -/

theorem visitsOf_append (kind : NodeKind) (xs ys : List Visit) :
    visitsOf kind (xs ++ ys) = visitsOf kind xs + visitsOf kind ys := List.countP_append

theorem visitsOf_comments (hk : kind ∈ summarized) (cs : List Comment) :
    visitsOf kind (cs.map visitComment) = 0 := by
  have hne : NodeKind.comment ≠ kind := by rintro rfl; revert hk; decide
  refine List.countP_eq_zero.2 (List.forall_mem_map.2 fun c _ => ?_)
  simpa [visitComment] using hne

theorem visitsOf_statement (hk : kind ∈ summarized) (s : Statement) (notes : Notes) :
    visitsOf kind (walk (fun _ => false) (.statement s notes)) = 0 := by
  have hne : (visitStatement s).kind ≠ kind := by
    rintro rfl
    cases s <;> simp [visitStatement, summarized] at hk
  rw [walk, visitUnless, if_neg Bool.false_ne_true, visitNotes, visitsOf, List.countP_cons_of_neg,
    ← visitsOf, visitsOf_comments hk]
  simpa using hne

theorem visitsOf_block (hk : kind ∈ summarized) (head : Head) (body : List Element)
    (curly : Option Comment) (notes : Notes) :
    visitsOf kind (walk (fun _ => false) (.block head body curly notes)) =
      visitsOf kind (walkAll (fun _ => false) body) +
        if (visitHead head).kind = kind then 1 else 0 := by
  rw [walk, visitUnless, if_neg Bool.false_ne_true, visitsOf, List.countP_cons, ← visitsOf,
    visitsOf_append, visitsOf_append, visitNotes, visitsOf_comments hk, visitsOf_comments hk]
  simp

/-- Whether no block may stand in a body. -/
def IsFlat (scope : Scope) : Prop :=
  ∀ p ∈ bodyHolds scope, p ∉ [.oneof, .enum, .extend, .message, .service, .rpc]

instance (scope : Scope) : Decidable (IsFlat scope) :=
  inferInstanceAs (Decidable (∀ p ∈ bodyHolds scope, p ∉ [.oneof, .enum, .extend, .message, .service, .rpc]))

theorem IsFlat.head_not_mem (h : IsFlat scope) (head : Head) : head.production ∉ bodyHolds scope := by
  intro hmem
  have hhead := h _ hmem
  cases head <;> simp [Head.production] at hhead

/-- A body without blocks has nothing that is counted. -/
theorem visitsOf_flat (hk : kind ∈ summarized) (hscope : IsFlat scope) (h : AllProper scope body) :
    visitsOf kind (walkAll (fun _ => false) body) = 0 := by
  induction body with
  | nil => rfl
  | cons e rest ih =>
    have he : visitsOf kind (walk (fun _ => false) e) = 0 := by
      cases e with
      | comment c => exact visitsOf_comments hk [c]
      | statement s notes => exact visitsOf_statement hk s notes
      | block head inner curly notes => exact absurd h.1.1 (hscope.head_not_mem head)
      | fragment f => rfl
      | file version inner => exact h.1.elim
    rw [walkAll, visitsOf_append, he, ih h.2]

theorem visitsOf_flatBlock (hk : kind ∈ summarized) (head : Head) (hscope : IsFlat head.scope)
    (h : AllProper head.scope body) (curly : Option Comment) (notes : Notes) :
    visitsOf kind (walk (fun _ => false) (.block head body curly notes)) =
      if (visitHead head).kind = kind then 1 else 0 := by
  rw [visitsOf_block hk, visitsOf_flat hk hscope h, Nat.zero_add]

/-- The rpcs in the body of a service. -/
theorem visitsOf_service (hk : kind ∈ summarized) (h : AllProper .service body) :
    visitsOf kind (walkAll (fun _ => false) body) =
      if NodeKind.rpc = kind then (rpcs body).length else 0 := by
  induction body with
  | nil => split <;> rfl
  | cons e rest ih =>
    rw [walkAll, visitsOf_append, ih h.2]
    cases e with
    | comment c =>
      rw [show visitsOf kind (walk (fun _ => false) (.comment c)) = 0 from visitsOf_comments hk [c],
        Nat.zero_add]
      rfl
    | statement s notes =>
      rw [visitsOf_statement hk, Nat.zero_add]
      cases s <;> rfl
    | block head inner curly notes =>
      have hhead : head.production ∈ bodyHolds .service := h.1.1
      cases head with
      | rpc r =>
        have hrpcs : AllProper .rpc inner := h.1.2
        rw [visitsOf_flatBlock hk (.rpc r) (show IsFlat .rpc by decide) hrpcs]
        by_cases hrpc : NodeKind.rpc = kind
        · rw [if_pos hrpc, if_pos hrpc]
          exact (if_pos hrpc ▸ Nat.add_comm ..)
        · rw [if_neg hrpc, if_neg hrpc]
          exact if_neg hrpc
      | _ => simp [Head.production, bodyHolds] at hhead
    | fragment f => exact h.1.elim
    | file version inner => exact h.1.elim

/-! ## Nested declarations -/

theorem size_enum (hk : kind ∈ summarized) (e : EnumView) :
    ({ enums := [e] } : Nested).size kind = if NodeKind.enum = kind then 1 else 0 := by
  revert hk
  cases kind <;> simp [summarized, Nested.size, allEnums, allMessages, allRpcs]

theorem size_service (hk : kind ∈ summarized) (s : ServiceView) :
    ({ services := [s] } : Nested).size kind =
      (if NodeKind.rpc = kind then s.rpcs.length else 0) + if NodeKind.service = kind then 1 else 0 := by
  revert hk
  cases kind <;> simp [summarized, Nested.size, allEnums, allMessages, allRpcs]

/-- A message counts for itself and for what is nested in it, which is no service. -/
theorem size_message {n : Nested} (hk : kind ∈ summarized) (hn : n.services = []) {m : MessageView}
    (hmessages : m.messages = n.messages) (henums : m.enums = n.enums) :
    ({ messages := [m] } : Nested).size kind =
      n.size kind + if NodeKind.message = kind then 1 else 0 := by
  obtain ⟨⟩ := m
  obtain rfl := hmessages
  obtain rfl := henums
  revert hk
  cases kind <;>
    simp [summarized, Nested.size, allEnums, allMessages, MessageView.all, allRpcs, hn]

/-- The visits of a walk are of the same numbers as what has views; in a message, no service has one. -/
structure Counts (level : Level) (visits : List Visit) (n : Nested) : Prop where
  size : ∀ kind ∈ summarized, visitsOf kind visits = n.size kind
  services : level = .message → n.services = []

theorem Counts.append {xs ys : List Visit} {m n : Nested} (hm : Counts level xs m)
    (hn : Counts level ys n) : Counts level (xs ++ ys) (m.append n) where
  size kind hk := by rw [visitsOf_append, hm.size kind hk, hn.size kind hk, Nested.size_append]
  services h := List.append_eq_nil_iff.2 ⟨hm.services h, hn.services h⟩

theorem counts_empty {visits : List Visit} (h : ∀ kind ∈ summarized, visitsOf kind visits = 0) :
    Counts level visits {} :=
  ⟨fun kind hk => (h kind hk).trans (Nested.size_empty kind).symm, fun _ => rfl⟩

/-- A block of a kind that is not counted, without blocks in its body. -/
theorem counts_flatBlock (head : Head) (hscope : IsFlat head.scope)
    (hkind : (visitHead head).kind ∉ summarized) (h : AllProper head.scope body)
    (curly : Option Comment) (notes : Notes) :
    Counts level (walk (fun _ => false) (.block head body curly notes)) {} := by
  refine counts_empty fun kind hk => ?_
  rw [visitsOf_flatBlock hk head hscope h]
  refine if_neg ?_
  rintro rfl
  exact hkind hk

mutual
/-- What a walk comes by in an element is what the view has of it. -/
theorem nestedOf_counts (level : Level) (hlevel : level = .file ∨ level = .message) :
    (e : Element) → e.Proper level.scope →
      ∃ n, nestedOf level e = .ok n ∧ Counts level (walk (fun _ => false) e) n
  | .block head body curly notes, h => by
    have hmem : head.production ∈ bodyHolds level.scope := h.1
    have hbody : AllProper head.scope body := h.2
    cases head with
    | message name =>
      have hcheck := check_of_proper .message hbody
      obtain ⟨n, hn, hcounts⟩ := nestedIn_counts .message (.inr rfl) body hbody
      refine ⟨{ messages := [⟨name, _, _, _, _, _, _, _, _, _, curly, notes⟩] },
        by simp only [nestedOf, hn, assemble, hcheck]; rfl, fun kind hk => ?_, fun _ => rfl⟩
      rw [visitsOf_block hk, hcounts.size kind hk]
      exact (size_message hk (hcounts.services rfl) rfl rfl).symm
    | enum name =>
      have hcheck := check_of_proper .enum hbody
      refine ⟨{ enums := [_] }, by simp only [nestedOf, ofEnum, hcheck]; rfl, fun kind hk => ?_,
        fun _ => rfl⟩
      rw [size_enum hk]
      exact visitsOf_flatBlock hk (.enum name) (show IsFlat .enum by decide) hbody curly notes
    | service name =>
      have hcheck := check_of_proper .service hbody
      -- in a message a service would be visited but not viewed; it cannot stand there
      rcases hlevel with rfl | rfl
      · refine ⟨{ services := [_] }, by simp only [nestedOf, ofService, hcheck]; rfl, fun kind hk => ?_,
          nofun⟩
        rw [visitsOf_block hk, size_service hk, visitsOf_service hk hbody]
        rfl
      · exact absurd (show Grammar.Production.service ∈ bodyHolds .message from hmem) (by decide)
    | oneof name =>
      exact ⟨{}, rfl, counts_flatBlock (.oneof name) (show IsFlat .oneof by decide)
        (show NodeKind.oneof ∉ _ by decide) hbody curly notes⟩
    | extend type =>
      exact ⟨{}, rfl, counts_flatBlock (.extend type) (show IsFlat .extend by decide)
        (show NodeKind.extend ∉ _ by decide) hbody curly notes⟩
    | rpc r =>
      rcases hlevel with rfl | rfl
      · exact absurd (show Grammar.Production.rpc ∈ bodyHolds .file from hmem) (by decide)
      · exact absurd (show Grammar.Production.rpc ∈ bodyHolds .message from hmem) (by decide)
  | .comment c, _ => ⟨{}, rfl, counts_empty fun _ hk => visitsOf_comments hk [c]⟩
  | .statement s notes, _ => ⟨{}, rfl, counts_empty fun _ hk => visitsOf_statement hk s notes⟩
  | .fragment _, h => h.elim
  | .file _ _, h => h.elim

theorem nestedIn_counts (level : Level) (hlevel : level = .file ∨ level = .message) :
    (body : List Element) → AllProper level.scope body →
      ∃ n, nestedIn level body = .ok n ∧ Counts level (walkAll (fun _ => false) body) n
  | [], _ => ⟨{}, rfl, counts_empty fun _ _ => rfl⟩
  | e :: rest, h => by
    obtain ⟨m, hm, hcm⟩ := nestedOf_counts level hlevel e h.1
    obtain ⟨n, hn, hcn⟩ := nestedIn_counts level hlevel rest h.2
    exact ⟨m.append n, by simp only [nestedIn, hm, hn]; rfl, hcm.append hcn⟩
end

end View

end ProtoIdl
