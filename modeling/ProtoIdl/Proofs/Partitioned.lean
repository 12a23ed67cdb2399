import ProtoIdl.View.Unordered
import Mathlib.Data.List.Forall2
import Mathlib.Data.List.Nodup
import Mathlib.Algebra.BigOperators.Group.List.Basic
import Mathlib.Algebra.GroupWithZero.Nat
/-!
# The unordered view is a stable partition

Every kind of element goes to one list (`Element.bucket?`), and every level has the lists of some kinds
(`View.Level.buckets`). A file has a view just if the bodies that the view takes apart
(`View.Reached`) hold elements of their level's kinds only. Each list is then the body without the
elements of other kinds, in order; messages, enums and services are replaced by their own views
(`View.FileView.Shows`).

A body is checked after all that is nested in it, wherever in the body that stands. So the element that
is reported need not be the first one of the text: it is the first of `View.offenders`. Main statement:
`view_partition`.
-/
namespace ProtoIdl

/-- The lists that elements go to. -/
inductive View.Bucket
  | imports
  | packages
  | options
  | fields
  | maps
  | enumFields
  | reserves
  | oneofs
  | extensions
  | rpcs
  | messages
  | enums
  | services
  | comments
deriving DecidableEq

/-- The list that an element goes to. Versions, parts of statements and whole files go to none. -/
def Element.bucket? : Element → Option View.Bucket
  | .comment _ => some .comments
  | .statement s _ => match s with
    | .version _ => none
    | .importing _ => some .imports
    | .package _ => some .packages
    | .option _ => some .options
    | .field _ => some .fields
    | .mapField _ => some .maps
    | .enumField _ => some .enumFields
    | .reserved _ => some .reserves
  | .block head _ _ _ => match head with
    | .oneof _ => some .oneofs
    | .enum _ => some .enums
    | .extend _ => some .extensions
    | .message _ => some .messages
    | .service _ => some .services
    | .rpc _ => some .rpcs
  | .fragment _ => none
  | .file _ _ => none

/-- A statement of a list as the element it was. -/
def Noted.element {α : Type} (f : α → Statement) (n : Noted α) : Element :=
  .statement (f n.item) n.notes

/-- A block of a list as the element it was. -/
def Block.element {α : Type} (f : α → Head) (b : Block α) : Element :=
  .block (f b.head) b.body b.behindCurly b.notes

namespace View

/-- The lists of a level. -/
def Level.buckets : Level → List Bucket
  | .file => [.imports, .packages, .options, .messages, .enums, .services, .extensions, .comments]
  | .message =>
    [.fields, .enums, .messages, .options, .oneofs, .maps, .reserves, .extensions, .comments]
  | .enum => [.options, .enumFields, .reserves, .comments]
  | .service => [.options, .rpcs, .comments]

/-- A level allows an element that goes to one of its lists. -/
def Level.Allows (level : Level) (e : Element) : Prop := ∃ b ∈ level.buckets, e.bucket? = some b

instance (level : Level) (e : Element) : Decidable (level.Allows e) :=
  inferInstanceAs (Decidable (∃ b ∈ level.buckets, e.bucket? = some b))

/-- The level of a body that is taken apart where its block stands; the bodies of other blocks stay as
they are. -/
def Level.opens : Level → Head → Option Level
  | .file, .message _ | .message, .message _ => some .message
  | .file, .enum _ | .message, .enum _ => some .enum
  | .file, .service _ => some .service
  | _, _ => none

/-- The bodies of a file that are taken apart. -/
inductive Reached (f : File) : Level → List Element → Prop
  | file : Reached f .file f.body
  | inner {level inner : Level} {body nested : List Element} {head : Head} {curly : Option Comment}
      {notes : Notes} (h : Reached f level body) (hmem : .block head nested curly notes ∈ body)
      (hopens : level.opens head = some inner) : Reached f inner nested

/-- The elements of a body that go to a list, in order. -/
def kind (b : Bucket) (body : List Element) : List Element :=
  body.filter fun e => e.bucket? = some b

/-! ## What is misplaced -/

/-- The elements of a body that its level does not allow. -/
def own (level : Level) (body : List Element) : List Misplaced :=
  (body.filter fun e => ¬ level.Allows e).map fun e => ⟨level, e.className⟩

mutual
/-- What is misplaced in the body of an element, what is nested in that body first. -/
def offendersOf (level : Level) : Element → List Misplaced
  | .block head body _ _ =>
    match level.opens head with
    | some inner => offendersIn inner body ++ own inner body
    | none => []
  | _ => []

/-- What is misplaced in the bodies of some elements, one element after the other. -/
def offendersIn (level : Level) : List Element → List Misplaced
  | [] => []
  | e :: rest => offendersOf level e ++ offendersIn level rest
end

/-- What is misplaced in a body, in the order in which it is looked for: first what is nested in it. -/
def offenders (level : Level) (body : List Element) : List Misplaced :=
  offendersIn level body ++ own level body

/-! ## What a view shows -/

/-- The lists of an enum are those of a body. -/
structure EnumView.Sorts (v : EnumView) (body : List Element) : Prop where
  options : v.options.map (Noted.element .option) = kind .options body
  fields : v.fields.map (Noted.element .enumField) = kind .enumFields body
  reserves : v.reserves.map (Noted.element .reserved) = kind .reserves body
  comments : v.comments.map .comment = kind .comments body
  length : v.options.length + v.fields.length + v.reserves.length + v.comments.length = body.length

/-- The enum is shown. -/
inductive EnumShown : Element → EnumView → Prop
  | intro {body : List Element} {v : EnumView} (sorts : v.Sorts body) :
    EnumShown (.block (.enum v.name) body v.behindCurly v.notes) v

/-- The lists of a service are those of a body. -/
structure ServiceView.Sorts (v : ServiceView) (body : List Element) : Prop where
  options : v.options.map (Noted.element .option) = kind .options body
  rpcs : v.rpcs.map (Block.element .rpc) = kind .rpcs body
  comments : v.comments.map .comment = kind .comments body
  length : v.options.length + v.rpcs.length + v.comments.length = body.length

/-- The service is shown. -/
inductive ServiceShown : Element → ServiceView → Prop
  | intro {body : List Element} {v : ServiceView} (sorts : v.Sorts body) :
    ServiceShown (.block (.service v.name) body v.behindCurly v.notes) v

/-- The lists of a message, those of messages and enums apart, are those of a body. -/
structure MessageView.Sorts (v : MessageView) (body : List Element) : Prop where
  fields : v.fields.map (Noted.element .field) = kind .fields body
  options : v.options.map (Noted.element .option) = kind .options body
  oneofs : v.oneofs.map (Block.element .oneof) = kind .oneofs body
  maps : v.maps.map (Noted.element .mapField) = kind .maps body
  reserves : v.reserves.map (Noted.element .reserved) = kind .reserves body
  extensions : v.extensions.map (Block.element .extend) = kind .extensions body
  comments : v.comments.map .comment = kind .comments body
  length : v.fields.length + v.enums.length + v.messages.length + v.options.length +
    v.oneofs.length + v.maps.length + v.reserves.length + v.extensions.length +
      v.comments.length = body.length

/-- The message is shown, and all that is nested in it. -/
inductive MessageShown : Element → MessageView → Prop
  | intro {body : List Element} {v : MessageView} (sorts : v.Sorts body)
    (messages : List.Forall₂ MessageShown (kind .messages body) v.messages)
    (enums : List.Forall₂ EnumShown (kind .enums body) v.enums) :
    MessageShown (.block (.message v.name) body v.behindCurly v.notes) v

/-- The file is shown, and all that is nested in it. -/
structure FileView.Shows (v : FileView) (f : File) : Prop where
  version : v.version = f.version
  imports : v.imports.map (Noted.element .importing) = kind .imports f.body
  packages : v.packages.map (Noted.element .package) = kind .packages f.body
  options : v.options.map (Noted.element .option) = kind .options f.body
  messages : List.Forall₂ MessageShown (kind .messages f.body) v.messages
  enums : List.Forall₂ EnumShown (kind .enums f.body) v.enums
  services : List.Forall₂ ServiceShown (kind .services f.body) v.services
  extensions : v.extensions.map (Block.element .extend) = kind .extensions f.body
  comments : v.comments.map .comment = kind .comments f.body
  length : v.imports.length + v.packages.length + v.options.length + v.messages.length +
    v.enums.length + v.services.length + v.extensions.length + v.comments.length = f.body.length

/-! ## The lists of a body -/

variable {level : Level} {body : List Element} {e : Element}

/-- The check allows the elements that have a list. -/
theorem Level.holds_iff : level.holds e = true ↔ level.Allows e := by
  unfold Allows
  cases e with
  | comment c => cases level <;> simp [holds, buckets, Element.bucket?]
  | statement s notes => cases level <;> cases s <;> simp [holds, buckets, Element.bucket?]
  | block head inner curly notes => cases level <;> cases head <;> simp [holds, buckets, Element.bucket?]
  | fragment f => cases level <;> simp [holds, Element.bucket?]
  | file version inner => cases level <;> simp [holds, Element.bucket?]

theorem kind_cons (b : Bucket) (e : Element) (rest : List Element) :
    kind b (e :: rest) = kind b [e] ++ kind b rest := by
  simp only [kind, List.filter_cons, List.filter_nil]
  split <;> rfl

/-- A list that takes the elements of one kind only, and from which they can be told, is the list of
that kind. -/
theorem map_filterMap {α : Type} {b : Bucket} {pick : Element → Option α} {back : α → Element}
    (h : ∀ e, (pick e).map back = if e.bucket? = some b then some e else none) (body : List Element) :
    (body.filterMap pick).map back = kind b body := by
  induction body with
  | nil => rfl
  | cons e rest ih =>
    have he := h e
    rw [kind, List.filter_cons, ← kind, ← ih]
    by_cases hb : e.bucket? = some b
    · simp only [hb, ↓reduceIte, Option.map_eq_some_iff] at he
      obtain ⟨a, ha, hback⟩ := he
      simp [hb, ha, hback]
    · simp only [hb, ↓reduceIte, Option.map_eq_none_iff] at he
      simp [hb, he]

theorem map_comments (body : List Element) :
    (comments body).map .comment = kind .comments body :=
  map_filterMap (by rintro (_ | ⟨⟨⟩, _⟩ | ⟨⟨⟩, _, _, _⟩ | _ | _) <;> rfl) body

theorem map_options (body : List Element) :
    (options body).map (Noted.element .option) = kind .options body :=
  map_filterMap (by rintro (_ | ⟨⟨⟩, _⟩ | ⟨⟨⟩, _, _, _⟩ | _ | _) <;> rfl) body

theorem map_imports (body : List Element) :
    (imports body).map (Noted.element .importing) = kind .imports body :=
  map_filterMap (by rintro (_ | ⟨⟨⟩, _⟩ | ⟨⟨⟩, _, _, _⟩ | _ | _) <;> rfl) body

theorem map_packages (body : List Element) :
    (packages body).map (Noted.element .package) = kind .packages body :=
  map_filterMap (by rintro (_ | ⟨⟨⟩, _⟩ | ⟨⟨⟩, _, _, _⟩ | _ | _) <;> rfl) body

theorem map_fields (body : List Element) :
    (fields body).map (Noted.element .field) = kind .fields body :=
  map_filterMap (by rintro (_ | ⟨⟨⟩, _⟩ | ⟨⟨⟩, _, _, _⟩ | _ | _) <;> rfl) body

theorem map_mapFields (body : List Element) :
    (mapFields body).map (Noted.element .mapField) = kind .maps body :=
  map_filterMap (by rintro (_ | ⟨⟨⟩, _⟩ | ⟨⟨⟩, _, _, _⟩ | _ | _) <;> rfl) body

theorem map_enumFields (body : List Element) :
    (enumFields body).map (Noted.element .enumField) = kind .enumFields body :=
  map_filterMap (by rintro (_ | ⟨⟨⟩, _⟩ | ⟨⟨⟩, _, _, _⟩ | _ | _) <;> rfl) body

theorem map_reserves (body : List Element) :
    (reserves body).map (Noted.element .reserved) = kind .reserves body :=
  map_filterMap (by rintro (_ | ⟨⟨⟩, _⟩ | ⟨⟨⟩, _, _, _⟩ | _ | _) <;> rfl) body

theorem map_oneofs (body : List Element) :
    (oneofs body).map (Block.element .oneof) = kind .oneofs body :=
  map_filterMap (by rintro (_ | ⟨⟨⟩, _⟩ | ⟨⟨⟩, _, _, _⟩ | _ | _) <;> rfl) body

theorem map_extensions (body : List Element) :
    (extensions body).map (Block.element .extend) = kind .extensions body :=
  map_filterMap (by rintro (_ | ⟨⟨⟩, _⟩ | ⟨⟨⟩, _, _, _⟩ | _ | _) <;> rfl) body

theorem map_rpcs (body : List Element) :
    (rpcs body).map (Block.element .rpc) = kind .rpcs body :=
  map_filterMap (by rintro (_ | ⟨⟨⟩, _⟩ | ⟨⟨⟩, _, _, _⟩ | _ | _) <;> rfl) body

theorem sum_indicator (b : Bucket) (bs : List Bucket) :
    (bs.map fun c => if b = c then 1 else 0).sum = bs.count b := by
  induction bs with
  | nil => rfl
  | cons c bs ih =>
    rw [List.map_cons, List.sum_cons, ih, List.count_cons]
    by_cases h : b = c
    · simp [h, Nat.add_comm]
    · simp [h, Ne.symm h]

/-- Every element is in one list, so the lists are as long together as the body. -/
theorem sum_kinds (hbody : ∀ e ∈ body, level.Allows e) :
    (level.buckets.map fun b => (kind b body).length).sum = body.length := by
  induction body with
  | nil =>
    cases level <;> rfl
  | cons e rest ih =>
    obtain ⟨b, hb, he⟩ := hbody e List.mem_cons_self
    have hnodup : level.buckets.Nodup := by cases level <;> decide
    have hcons (c : Bucket) : (kind c (e :: rest)).length =
        (if b = c then 1 else 0) + (kind c rest).length := by
      rw [kind_cons, List.length_append, kind, List.filter_singleton, he]
      by_cases h : b = c <;> simp [h]
    simp only [hcons]
    rw [List.sum_map_add, sum_indicator, List.count_eq_one_of_mem hnodup hb,
      ih fun x hx => hbody x (List.mem_cons_of_mem _ hx), List.length_cons, Nat.add_comm]

/-! ## Outcomes -/

/-- The outcome is a value with `P`, and nothing is misplaced; or it is the first of `ms`. -/
def Reports {α : Type} (x : Except Misplaced α) (ms : List Misplaced) (P : α → Prop) : Prop :=
  match x with
  | .ok a => ms = [] ∧ P a
  | .error m => ms.head? = some m

namespace Reports

variable {α β : Type} {x : Except Misplaced α} {ms ns : List Misplaced} {P : α → Prop}

theorem pure {a : α} (h : P a) : Reports (Pure.pure a) [] P := ⟨rfl, h⟩

/-- What is looked at first is reported first. -/
theorem bind {f : α → Except Misplaced β} {Q : β → Prop} (hx : Reports x ms P)
    (hf : ∀ a, P a → Reports (f a) ns Q) : Reports (x >>= f) (ms ++ ns) Q := by
  cases x with
  | ok a =>
    obtain ⟨rfl, ha⟩ := hx
    exact hf a ha
  | error m =>
    have hm : ms.head? = some m := hx
    show (ms ++ ns).head? = some m
    rw [List.head?_append, hm]
    rfl

theorem map {f : α → β} {Q : β → Prop} (hx : Reports x ms P) (hf : ∀ a, P a → Q (f a)) :
    Reports (x >>= fun a => Pure.pure (f a)) ms Q := by
  rw [← List.append_nil ms]
  exact hx.bind fun a ha => .pure (hf a ha)

theorem exists_ok_iff (h : Reports x ms P) : (∃ a, x = .ok a) ↔ ms = [] := by
  cases x with
  | ok a => simp [h.1]
  | error m =>
    have hm : ms.head? = some m := h
    constructor
    · rintro ⟨a, ha⟩
      cases ha
    · rintro rfl
      cases hm

theorem error_iff (h : Reports x ms P) (m : Misplaced) : x = .error m ↔ ms.head? = some m := by
  cases x with
  | ok a => simp [h.1]
  | error n =>
    have hn : ms.head? = some n := h
    rw [hn]
    simp

end Reports

theorem own_eq_nil_iff : own level body = [] ↔ ∀ e ∈ body, level.Allows e := by
  simp [own, List.filter_eq_nil_iff]

/-- A body is checked for its own elements. -/
theorem check_reports (level : Level) (body : List Element) :
    Reports (check level body) (own level body) fun _ => ∀ e ∈ body, level.Allows e := by
  have hown : own level body =
      (body.filter fun e => !level.holds e).map fun e => ⟨level, e.className⟩ := by
    unfold own
    congr 2
    funext e
    have hiff : level.holds e = true ↔ level.Allows e := Level.holds_iff
    by_cases h : level.Allows e
    · simp [h, hiff.2 h]
    · simp [h, mt hiff.1 h]
  unfold check
  cases hfind : body.find? fun e => !level.holds e with
  | none =>
    have hall : ∀ e ∈ body, level.Allows e := by
      intro e he
      have := List.find?_eq_none.1 hfind e he
      exact Level.holds_iff.1 (by simpa using this)
    exact ⟨own_eq_nil_iff.2 hall, hall⟩
  | some e =>
    show (own level body).head? = some ⟨level, e.className⟩
    rw [hown, List.head?_map, List.head?_filter, hfind]
    rfl

theorem ofEnum_reports (name : String) (body : List Element) (curly : Option Comment)
    (notes : Notes) : Reports (ofEnum name body curly notes) (own .enum body)
      fun v => EnumShown (.block (.enum name) body curly notes) v := by
  refine (check_reports .enum body).map fun _ hall => ?_
  have hlength := sum_kinds hall
  simp only [Level.buckets, List.map_cons, List.map_nil, List.sum_cons, List.sum_nil,
    ← map_options, ← map_enumFields, ← map_reserves, ← map_comments, List.length_map] at hlength
  refine .intro (v := ⟨name, _, _, _, _, curly, notes⟩) ⟨map_options body, map_enumFields body,
    map_reserves body, map_comments body, ?_⟩
  dsimp only
  omega

theorem ofService_reports (name : String) (body : List Element) (curly : Option Comment)
    (notes : Notes) : Reports (ofService name body curly notes) (own .service body)
      fun v => ServiceShown (.block (.service name) body curly notes) v := by
  refine (check_reports .service body).map fun _ hall => ?_
  have hlength := sum_kinds hall
  simp only [Level.buckets, List.map_cons, List.map_nil, List.sum_cons, List.sum_nil,
    ← map_options, ← map_rpcs, ← map_comments, List.length_map] at hlength
  refine .intro (v := ⟨name, _, _, _, curly, notes⟩) ⟨map_options body, map_rpcs body,
    map_comments body, ?_⟩
  dsimp only
  omega

/-! ## Nested declarations -/

/-- Nothing is looked into in the body of an enum or of a service. -/
theorem offendersIn_closed (h : ∀ head, level.opens head = none) (body : List Element) :
    offendersIn level body = [] := by
  induction body with
  | nil => rfl
  | cons e rest ih =>
    rw [offendersIn, ih, List.append_nil]
    cases e with
    | block head inner curly notes => rw [offendersOf, h]
    | _ => rfl

theorem offendersIn_enum (body : List Element) : offendersIn .enum body = [] :=
  offendersIn_closed (fun _ => rfl) body

theorem offendersIn_service (body : List Element) : offendersIn .service body = [] :=
  offendersIn_closed (fun _ => rfl) body

/-- The declarations that have views of their own are shown. -/
structure Nested.Shows (level : Level) (n : Nested) (body : List Element) : Prop where
  messages : List.Forall₂ MessageShown (kind .messages body) n.messages
  enums : List.Forall₂ EnumShown (kind .enums body) n.enums
  services : level = .file → List.Forall₂ ServiceShown (kind .services body) n.services

theorem Nested.Shows.append {m n : Nested} {rest : List Element} (hm : m.Shows level [e])
    (hn : n.Shows level rest) : (m.append n).Shows level (e :: rest) where
  messages := by
    rw [kind_cons]
    exact List.rel_append hm.messages hn.messages
  enums := by
    rw [kind_cons]
    exact List.rel_append hm.enums hn.enums
  services h := by
    rw [kind_cons]
    exact List.rel_append (hm.services h) (hn.services h)

/-- A message whose nested declarations are shown is checked for its own elements. -/
theorem assemble_reports {nested : Nested} (h : nested.Shows .message body) (name : String)
    (curly : Option Comment) (notes : Notes) :
    Reports (assemble nested name body curly notes) (own .message body)
      fun v => MessageShown (.block (.message name) body curly notes) v := by
  refine (check_reports .message body).map fun _ hall => ?_
  have hlength := sum_kinds hall
  simp only [Level.buckets, List.map_cons, List.map_nil, List.sum_cons, List.sum_nil,
    ← map_fields, ← map_options, ← map_oneofs, ← map_mapFields, ← map_reserves, ← map_extensions,
    ← map_comments, List.length_map, h.enums.length_eq, h.messages.length_eq] at hlength
  refine .intro (v := ⟨name, _, _, _, _, _, _, _, _, _, curly, notes⟩) ⟨map_fields body,
    map_options body, map_oneofs body, map_mapFields body, map_reserves body, map_extensions body,
    map_comments body, ?_⟩ h.messages h.enums
  dsimp only
  omega

mutual
/-- An element of a file or of a message is looked into in the order of `offendersOf`. -/
theorem nestedOf_reports (level : Level) (hlevel : level = .file ∨ level = .message) :
    (e : Element) → Reports (nestedOf level e) (offendersOf level e) fun n => n.Shows level [e]
  | .block head body curly notes => by
    cases head with
    | message name =>
      have hopens : level.opens (.message name) = some .message := by
        rcases hlevel with rfl | rfl <;> rfl
      simp only [nestedOf, offendersOf, hopens]
      refine (nestedIn_reports .message (.inr rfl) body).bind fun nested hnested => ?_
      refine (assemble_reports hnested name curly notes).map fun v hv => ?_
      exact ⟨.cons hv .nil, .nil, fun _ => .nil⟩
    | enum name =>
      have hopens : level.opens (.enum name) = some .enum := by
        rcases hlevel with rfl | rfl <;> rfl
      simp only [nestedOf, offendersOf, hopens, offendersIn_enum, List.nil_append]
      exact (ofEnum_reports name body curly notes).map fun v hv =>
        ⟨.nil, .cons hv .nil, fun _ => .nil⟩
    | service name =>
      rcases hlevel with rfl | rfl
      · simp only [nestedOf, offendersOf, Level.opens, ↓reduceIte, offendersIn_service, List.nil_append]
        exact (ofService_reports name body curly notes).map fun v hv =>
          ⟨.nil, .nil, fun _ => .cons hv .nil⟩
      · exact .pure ⟨.nil, .nil, nofun⟩
    | oneof name => rcases hlevel with rfl | rfl <;> exact .pure ⟨.nil, .nil, fun _ => .nil⟩
    | extend type => rcases hlevel with rfl | rfl <;> exact .pure ⟨.nil, .nil, fun _ => .nil⟩
    | rpc r => rcases hlevel with rfl | rfl <;> exact .pure ⟨.nil, .nil, fun _ => .nil⟩
  | .comment c => .pure ⟨.nil, .nil, fun _ => .nil⟩
  | .statement s notes => by cases s <;> exact .pure ⟨.nil, .nil, fun _ => .nil⟩
  | .fragment f => .pure ⟨.nil, .nil, fun _ => .nil⟩
  | .file version body => .pure ⟨.nil, .nil, fun _ => .nil⟩

theorem nestedIn_reports (level : Level) (hlevel : level = .file ∨ level = .message) :
    (body : List Element) →
      Reports (nestedIn level body) (offendersIn level body) fun n => n.Shows level body
  | [] => .pure ⟨.nil, .nil, fun _ => .nil⟩
  | e :: rest =>
    (nestedOf_reports level hlevel e).bind fun _ hm =>
      (nestedIn_reports level hlevel rest).map fun _ hn => hm.append hn
end

theorem ofFile_reports (f : File) :
    Reports (ofFile f) (offenders .file f.body) fun v => v.Shows f := by
  refine (nestedIn_reports .file (.inl rfl) f.body).bind fun inner hinner => ?_
  refine (check_reports .file f.body).map fun _ hall => ?_
  have hlength := sum_kinds hall
  have hservices := hinner.services rfl
  simp only [Level.buckets, List.map_cons, List.map_nil, List.sum_cons, List.sum_nil,
    ← map_imports, ← map_packages, ← map_options, ← map_extensions, ← map_comments,
    List.length_map, hinner.messages.length_eq, hinner.enums.length_eq, hservices.length_eq] at hlength
  refine ⟨rfl, map_imports _, map_packages _, map_options _, hinner.messages, hinner.enums, hservices,
    map_extensions _, map_comments _, ?_⟩
  dsimp only
  omega

/-! ## What is reached -/

variable {f : File}

theorem offendersIn_eq_nil_iff :
    offendersIn level body = [] ↔ ∀ e ∈ body, offendersOf level e = [] := by
  induction body with
  | nil => simp [offendersIn]
  | cons e rest ih => simp [offendersIn, ih]

/-- Where nothing is misplaced in the file, nothing is misplaced in a body that is reached. -/
theorem Reached.offenders_eq_nil (h : Reached f level body) (hfile : offenders .file f.body = []) :
    offenders level body = [] := by
  induction h with
  | file => exact hfile
  | @inner level inner body nested head curly notes _ hmem hopens ih =>
    have hin := (List.append_eq_nil_iff.1 ih).1
    have hof := offendersIn_eq_nil_iff.1 hin _ hmem
    rwa [offendersOf, hopens] at hof

/-- The bodies that an element opens at a level are reached. -/
def Opens (f : File) (level : Level) (e : Element) : Prop :=
  ∀ head nested curly notes inner, e = .block head nested curly notes →
    level.opens head = some inner → Reached f inner nested

theorem Reached.opens (h : Reached f level body) (he : e ∈ body) : Opens f level e := by
  rintro head nested curly notes inner rfl hopens
  exact h.inner he hopens

mutual
/-- Where the bodies that are reached hold nothing misplaced, nothing is found in them. -/
theorem offendersOf_eq_nil (hall : ∀ level body, Reached f level body → own level body = [])
    (level : Level) : (e : Element) → Opens f level e → offendersOf level e = []
  | .block head body curly notes, h => by
    rw [offendersOf]
    cases hopens : level.opens head with
    | none => rfl
    | some inner =>
      have hreached := h _ _ _ _ _ rfl hopens
      have hin := offendersIn_eq_nil hall inner body fun e he => hreached.opens he
      simp only [hin, hall _ _ hreached, List.append_nil]
  | .comment _, _ => rfl
  | .statement _ _, _ => rfl
  | .fragment _, _ => rfl
  | .file _ _, _ => rfl

theorem offendersIn_eq_nil (hall : ∀ level body, Reached f level body → own level body = [])
    (level : Level) : (body : List Element) → (∀ e ∈ body, Opens f level e) →
      offendersIn level body = []
  | [], _ => rfl
  | e :: rest, h => by
    rw [offendersIn, offendersOf_eq_nil hall level e (h e List.mem_cons_self),
      offendersIn_eq_nil hall level rest fun x hx => h x (List.mem_cons_of_mem _ hx)]
    rfl
end

theorem offenders_eq_nil_iff : offenders .file f.body = [] ↔
    ∀ level body, Reached f level body → ∀ e ∈ body, level.Allows e := by
  constructor
  · intro hfile level body h
    have hnil := h.offenders_eq_nil hfile
    exact own_eq_nil_iff.1 (List.append_eq_nil_iff.1 hnil).2
  · intro h
    have hall (level : Level) (body : List Element) (hreached : Reached f level body) :
        own level body = [] := own_eq_nil_iff.2 (h level body hreached)
    rw [offenders, hall _ _ .file, List.append_nil]
    exact offendersIn_eq_nil hall .file f.body fun e he => Reached.file.opens he

end View

/-- A file, whatever it holds, has an unordered view just if every body that is taken apart holds only
what its level allows. The lists of the view are then the elements of their kinds in order, at every level.
Otherwise the first element is reported that is misplaced, where a body is looked at after what is
nested in it. -/
theorem view_partition (f : File) :
    ((∃ v, View.ofFile f = .ok v) ↔
      ∀ level body, View.Reached f level body → ∀ e ∈ body, level.Allows e) ∧
    (∀ v, View.ofFile f = .ok v → v.Shows f) ∧
    ∀ m, View.ofFile f = .error m ↔ (View.offenders .file f.body).head? = some m := by
  have h := View.ofFile_reports f
  refine ⟨h.exists_ok_iff.trans View.offenders_eq_nil_iff, fun v hv => ?_, h.error_iff⟩
  rw [hv] at h
  exact h.2

/-- A message in an enum is reported before the enum value in front of that enum. -/
theorem view_partition_sample :
    let value : Element := .statement (.enumField ⟨"A", "0", []⟩) {}
    let inner : Element := .block (.message "M") [] none {}
    let mixed : File := ⟨none, [value, .block (.message "N") [value, inner,
      .block (.enum "E") [inner, value] none {}] none {}]⟩
    let sorted : File := ⟨none, [.block (.message "N") [.block (.enum "E") [value] none {}, inner]
      none {}, .comment ⟨"// c", {}⟩]⟩
    View.ofFile mixed = .error ⟨.enum, "ProtoMessage"⟩ ∧
      View.Misplaced.message ⟨.enum, "ProtoMessage"⟩ = "invalid enum body element ProtoMessage" ∧
        ∃ v, View.ofFile sorted = .ok v ∧ v.Shows sorted ∧ v.messages.length = 1 := by
  intro value inner mixed sorted
  refine ⟨((view_partition mixed).2.2 _).2 (by decide), by decide, ?_⟩
  obtain ⟨v, hv⟩ : ∃ v, View.ofFile sorted = .ok v := ⟨_, rfl⟩
  have hshows := (view_partition sorted).2.1 v hv
  exact ⟨v, hv, hshows, hshows.messages.length_eq.symm⟩

end ProtoIdl
