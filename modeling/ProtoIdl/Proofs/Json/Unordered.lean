import ProtoIdl.Json.Unordered
import ProtoIdl.Proofs.Json.Tree
import ProtoIdl.Proofs.Tree.Proper
/-!
# What the JSON form of an unordered view tells

A view has a list for each kind of declaration, so what is in a list is told by its members. The only
lists of several kinds that are left are the bodies of oneofs, extensions and rpcs. They hold no blocks
(`Block.IsFlat`), and of comments and statements no two kinds have the same members (`Json.leaf_inj`).
Every view of a file whose bodies hold what they may is of this kind (`View.exists_ofFile_flat`). Main
statement: `Json.fileView_inj`.
-/
namespace ProtoIdl

open Grammar (Scope)
open View

/-- A comment or a statement. -/
def Element.isLeaf : Element → Bool
  | .comment _ | .statement _ _ => true
  | .block _ _ _ _ | .fragment _ | .file _ _ => false

/-- The block holds comments and statements only. -/
def Block.IsFlat {α : Type} (b : Block α) : Prop := ∀ e ∈ b.body, e.isLeaf = true

/-- The rpcs of a service are flat. -/
def View.ServiceView.IsFlat (s : ServiceView) : Prop := ∀ b ∈ s.rpcs, b.IsFlat

mutual
/-- The oneofs and the extensions of a message are flat, and so are those of the messages in it. -/
def View.MessageView.IsFlat : MessageView → Prop
  | { oneofs, extensions, messages, .. } =>
    (∀ b ∈ oneofs, b.IsFlat) ∧ (∀ b ∈ extensions, b.IsFlat) ∧ AllFlat messages

/-- So it is for all messages of a list. -/
def View.AllFlat : List MessageView → Prop
  | [] => True
  | m :: ms => m.IsFlat ∧ AllFlat ms
end

/-- All that is left of the bodies of a file is flat. -/
structure View.FileView.IsFlat (f : FileView) : Prop where
  messages : AllFlat f.messages
  services : ∀ s ∈ f.services, s.IsFlat
  extensions : ∀ b ∈ f.extensions, b.IsFlat

/-! ## Bodies that are not taken apart -/

namespace Json

/-- Comments and statements are told by their members. -/
theorem leaf_inj {d e : Element} (hd : d.isLeaf = true) (he : e.isLeaf = true)
    (h : element d = element e) : d = e := by
  cases d with
  | comment c =>
    cases e with
    | comment c' => exact congrArg Element.comment (json_inj.1 h)
    | statement s notes => exact absurd h (comment_ne_noted c _ _)
    | block | fragment | file => cases he
  | statement s notes =>
    cases e with
    | comment c => exact absurd h.symm (comment_ne_noted c _ _)
    | statement t notes' =>
      obtain ⟨hmembers, rfl⟩ := noted_inj h
      rw [statement_inj hmembers]
    | block | fragment | file => cases he
  | block | fragment | file => cases hd

theorem leaves_inj {ds es : List Element} (hd : ∀ e ∈ ds, e.isLeaf = true)
    (he : ∀ e ∈ es, e.isLeaf = true) (h : elements ds = elements es) : ds = es := by
  induction ds generalizing es with
  | nil =>
    cases es with
    | nil => rfl
    | cons e es => cases h
  | cons d ds ih =>
    cases es with
    | nil => cases h
    | cons e es =>
      obtain ⟨hfirst, hrest⟩ := List.cons_eq_cons.1 h
      rw [List.forall_mem_cons] at hd he
      rw [leaf_inj hd.1 he.1 hfirst, ih hd.2 he.2 hrest]

/-- A block without blocks in it is told by its form, if its head is. -/
theorem blockOf_inj {α : Type} {mk : α → Head} (hmk : ∀ a b, head (mk a) = head (mk b) → a = b)
    {b c : Block α} (hb : b.IsFlat) (hc : c.IsFlat) (h : blockOf mk b = blockOf mk c) : b = c := by
  obtain ⟨hmembers, hcurly, hnotes⟩ := blocked_inj h
  obtain ⟨hhead, hbody⟩ := List.append_inj' hmembers rfl
  obtain ⟨a, body, curly, notes⟩ := b
  obtain ⟨a', body', curly', notes'⟩ := c
  obtain rfl : a = a' := hmk a a' hhead
  obtain rfl : body = body' := leaves_inj hb hc (by simpa using hbody)
  obtain rfl : curly = curly' := hcurly
  obtain rfl : notes = notes' := hnotes
  rfl

/-- What is told one by one is told in a list. -/
theorem map_inj_of_forall {α β : Type} {f : α → β} {p : α → Prop}
    (hf : ∀ a b, p a → p b → f a = f b → a = b) {as bs : List α} (ha : ∀ a ∈ as, p a)
    (hb : ∀ b ∈ bs, p b) (h : as.map f = bs.map f) : as = bs := by
  lift as to List {a // p a} using ha
  lift bs to List {a // p a} using hb
  rw [List.map_map, List.map_map] at h
  have hinj : Function.Injective (f ∘ Subtype.val : {a // p a} → β) :=
    fun a b hab => Subtype.ext (hf a b a.2 b.2 hab)
  rw [hinj.list_map h]

theorem oneofs_inj {bs cs : List (Block String)} (hb : ∀ b ∈ bs, b.IsFlat)
    (hc : ∀ c ∈ cs, c.IsFlat) (h : bs.map (blockOf .oneof) = cs.map (blockOf .oneof)) : bs = cs :=
  map_inj_of_forall (fun _ _ => blockOf_inj fun a b h => by simpa [head] using h) hb hc h

theorem extensions_inj {bs cs : List (Block String)} (hb : ∀ b ∈ bs, b.IsFlat)
    (hc : ∀ c ∈ cs, c.IsFlat) (h : bs.map (blockOf .extend) = cs.map (blockOf .extend)) : bs = cs :=
  map_inj_of_forall (fun _ _ => blockOf_inj fun a b h => by simpa [head] using h) hb hc h

theorem rpcs_inj {bs cs : List (Block Rpc)} (hb : ∀ b ∈ bs, b.IsFlat) (hc : ∀ c ∈ cs, c.IsFlat)
    (h : bs.map (blockOf .rpc) = cs.map (blockOf .rpc)) : bs = cs := by
  refine map_inj_of_forall (fun _ _ => blockOf_inj ?_) hb hc h
  rintro ⟨⟩ ⟨⟩ h
  simpa [head] using h

/-! ## Lists of one kind -/

/-- A statement of one kind is told together with its notes. -/
theorem noted_statement_inj {α : Type} {wrap : α → Statement} (hwrap : Function.Injective wrap) :
    Function.Injective fun n : Noted α => noted (statement (wrap n.item)) n.notes := by
  rintro ⟨a, m⟩ ⟨b, n⟩ h
  obtain ⟨hmembers, rfl⟩ := noted_inj h
  obtain rfl : a = b := hwrap (statement_inj hmembers)
  rfl

end Json

instance : ToJson.Faithful (Noted Import) :=
  ⟨Json.noted_statement_inj fun _ _ => Statement.importing.inj⟩

instance : ToJson.Faithful (Noted Package) :=
  ⟨Json.noted_statement_inj fun _ _ => Statement.package.inj⟩

instance : ToJson.Faithful (Noted OptionSetting) :=
  ⟨Json.noted_statement_inj fun _ _ => Statement.option.inj⟩

instance : ToJson.Faithful (Noted Field) :=
  ⟨Json.noted_statement_inj fun _ _ => Statement.field.inj⟩

instance : ToJson.Faithful (Noted MapField) :=
  ⟨Json.noted_statement_inj fun _ _ => Statement.mapField.inj⟩

instance : ToJson.Faithful (Noted EnumField) :=
  ⟨Json.noted_statement_inj fun _ _ => Statement.enumField.inj⟩

instance : ToJson.Faithful (Noted Reserved) :=
  ⟨Json.noted_statement_inj fun _ _ => Statement.reserved.inj⟩

/-! ## Enums, services, messages and files -/

namespace Json

/-- The members of a view in front of its notes: its name and the lists of its body. -/
theorem viewed_inj {name name' : String} {xs ys : List (String × Json)} {curly curly' : Option Comment}
    {m n : Notes} (h : blocked [("name", json name), ("body", .object xs)] curly m =
      blocked [("name", json name'), ("body", .object ys)] curly' n) :
    name = name' ∧ xs = ys ∧ curly = curly' ∧ m = n := by
  obtain ⟨hmembers, hcurly, hnotes⟩ := blocked_inj h
  simp only [List.cons.injEq, Prod.mk.injEq, json_inj, Json.object.injEq, true_and, and_true]
    at hmembers
  exact ⟨hmembers.1, hmembers.2, hcurly, hnotes⟩

end Json

instance : ToJson.Faithful EnumView where
  injective := by
    rintro ⟨⟩ ⟨⟩ h
    obtain ⟨rfl, hbody, rfl, rfl⟩ := Json.viewed_inj h
    simpa using hbody

namespace Json

theorem serviceView_inj {s t : ServiceView} (hs : s.IsFlat) (ht : t.IsFlat)
    (h : serviceView s = serviceView t) : s = t := by
  obtain ⟨name, options, rpcs, comments, curly, notes⟩ := s
  obtain ⟨name', options', rpcs', comments', curly', notes'⟩ := t
  obtain ⟨rfl, hbody, rfl, rfl⟩ := viewed_inj h
  simp only [List.cons.injEq, Prod.mk.injEq, json_inj, array.injEq, true_and, and_true] at hbody
  obtain ⟨rfl, hrpcs, rfl⟩ := hbody
  obtain rfl : rpcs = rpcs' := rpcs_inj hs ht hrpcs
  rfl

mutual
theorem messageView_inj : (m n : MessageView) → m.IsFlat → n.IsFlat →
    messageView m = messageView n → m = n
  | ⟨name, fields, enums, messages, options, oneofs, maps, reserves, extensions, comments, curly,
      notes⟩,
    ⟨name', fields', enums', messages', options', oneofs', maps', reserves', extensions', comments',
      curly', notes'⟩, hm, hn, h => by
    rw [MessageView.IsFlat] at hm hn
    rw [messageView, messageView] at h
    obtain ⟨rfl, hbody, rfl, rfl⟩ := viewed_inj h
    simp only [List.cons.injEq, Prod.mk.injEq, json_inj, array.injEq, true_and, and_true] at hbody
    obtain ⟨rfl, henums, hmessages, rfl, honeofs, rfl, rfl, hextensions, rfl⟩ := hbody
    rw [ToJson.Faithful.injective.list_map henums, oneofs_inj hm.1 hn.1 honeofs,
      extensions_inj hm.2.1 hn.2.1 hextensions,
      messageViews_inj messages messages' hm.2.2 hn.2.2 hmessages]

theorem messageViews_inj : (ms ns : List MessageView) → AllFlat ms → AllFlat ns →
    messageViews ms = messageViews ns → ms = ns
  | [], [], _, _, _ => rfl
  | [], _ :: _, _, _, h => by cases h
  | _ :: _, [], _, _, h => by cases h
  | m :: ms, n :: ns, hm, hn, h => by
    obtain ⟨hfirst, hrest⟩ := List.cons_eq_cons.1 h
    rw [messageView_inj m n hm.1 hn.1 hfirst, messageViews_inj ms ns hm.2 hn.2 hrest]
end

/-- The view of a file is told by its form, if what is left of its bodies is flat. -/
theorem fileView_inj {f g : FileView} (hf : f.IsFlat) (hg : g.IsFlat) (h : json f = json g) :
    f = g := by
  obtain ⟨version, imports, packages, options, messages, enums, services, extensions, comments⟩ := f
  obtain ⟨version', imports', packages', options', messages', enums', services', extensions',
    comments'⟩ := g
  have hmembers := object.inj h
  simp only [List.cons.injEq, Prod.mk.injEq, json_inj, object.injEq, array.injEq, true_and, and_true]
    at hmembers
  obtain ⟨rfl, rfl, rfl, rfl, hmessages, rfl, hservices, hextensions, rfl⟩ := hmembers
  obtain rfl : messages = messages' := messageViews_inj _ _ hf.messages hg.messages hmessages
  obtain rfl : services = services' :=
    map_inj_of_forall (fun _ _ => serviceView_inj) hf.services hg.services (array.inj hservices)
  obtain rfl : extensions = extensions' := extensions_inj hf.extensions hg.extensions hextensions
  rfl

end Json

/-! ## Views of what is read -/

/-- A body that is not taken apart holds no blocks. -/
theorem Element.isLeaf_of_proper {scope : Scope} (hscope : scope ∈ [Scope.oneof, .extend, .rpc])
    {e : Element} (h : e.Proper scope) : e.isLeaf = true := by
  cases e with
  | comment | statement => rfl
  | block k body curly notes =>
    have hk : k.production ∈ bodyHolds scope := h.1
    simp only [List.mem_cons, List.not_mem_nil, or_false] at hscope
    rcases hscope with rfl | rfl | rfl <;> cases k <;> simp [Head.production, bodyHolds] at hk
  | fragment | file => exact h.elim

namespace View

open Element (AllProper allProper_iff)

variable {body : List Element}

theorem mem_oneofs {b : Block String} (h : b ∈ oneofs body) :
    .block (.oneof b.head) b.body b.behindCurly b.notes ∈ body := by
  obtain ⟨e, he, heq⟩ := List.mem_filterMap.1 h
  split at heq
  · obtain rfl := Option.some.inj heq
    exact he
  · cases heq

theorem mem_extensions {b : Block String} (h : b ∈ extensions body) :
    .block (.extend b.head) b.body b.behindCurly b.notes ∈ body := by
  obtain ⟨e, he, heq⟩ := List.mem_filterMap.1 h
  split at heq
  · obtain rfl := Option.some.inj heq
    exact he
  · cases heq

theorem mem_rpcs {b : Block Rpc} (h : b ∈ rpcs body) :
    .block (.rpc b.head) b.body b.behindCurly b.notes ∈ body := by
  obtain ⟨e, he, heq⟩ := List.mem_filterMap.1 h
  split at heq
  · obtain rfl := Option.some.inj heq
    exact he
  · cases heq

section
variable {scope : Scope} (hbody : AllProper scope body)
include hbody

/-- Blocks that are not taken apart are flat wherever they stand. -/
theorem block_flat {α : Type} {b : Block α} {k : Head}
    (hk : k.scope ∈ [Scope.oneof, .extend, .rpc])
    (h : .block k b.body b.behindCurly b.notes ∈ body) : b.IsFlat := by
  have hproper := (allProper_iff.1 hbody _ h).2
  exact fun e he => Element.isLeaf_of_proper hk (allProper_iff.1 hproper e he)

theorem oneofs_flat : ∀ b ∈ oneofs body, b.IsFlat :=
  fun _ hb => block_flat hbody (by simp [Head.scope]) (mem_oneofs hb)

theorem extensions_flat : ∀ b ∈ extensions body, b.IsFlat :=
  fun _ hb => block_flat hbody (by simp [Head.scope]) (mem_extensions hb)

theorem rpcs_flat : ∀ b ∈ rpcs body, b.IsFlat :=
  fun _ hb => block_flat hbody (by simp [Head.scope]) (mem_rpcs hb)

end

/-- What is nested in a part of a body is flat. -/
structure Nested.IsFlat (n : Nested) : Prop where
  messages : AllFlat n.messages
  services : ∀ s ∈ n.services, s.IsFlat

theorem allFlat_append : {ms ns : List MessageView} → AllFlat ms → AllFlat ns → AllFlat (ms ++ ns)
  | [], _, _, hn => hn
  | _ :: _, _, hm, hn => ⟨hm.1, allFlat_append hm.2 hn⟩

theorem Nested.IsFlat.append {m n : Nested} (hm : m.IsFlat) (hn : n.IsFlat) :
    (m.append n).IsFlat where
  messages := allFlat_append hm.messages hn.messages
  services := List.forall_mem_append.2 ⟨hm.services, hn.services⟩

theorem Nested.isFlat_empty : Nested.IsFlat {} where
  messages := by rw [AllFlat]; trivial
  services := List.forall_mem_nil _

theorem Nested.isFlat_message {m : MessageView} (h : m.IsFlat) :
    Nested.IsFlat { messages := [m] } where
  messages := by rw [AllFlat, AllFlat]; exact ⟨h, trivial⟩
  services := List.forall_mem_nil _

theorem Nested.isFlat_enum (e : EnumView) : Nested.IsFlat { enums := [e] } where
  messages := by rw [AllFlat]; trivial
  services := List.forall_mem_nil _

theorem Nested.isFlat_service {s : ServiceView} (h : s.IsFlat) :
    Nested.IsFlat { services := [s] } where
  messages := by rw [AllFlat]; trivial
  services := List.forall_mem_singleton.2 h

/-- A message of proper elements is assembled, and is flat if what is nested in it is. -/
theorem exists_assemble_flat {nested : Nested} (hnested : nested.IsFlat) (name : String)
    {body : List Element} (hbody : AllProper .message body) (curly : Option Comment)
    (notes : Notes) :
    ∃ m, assemble nested name body curly notes = .ok m ∧ m.IsFlat := by
  refine ⟨_, by simp [assemble, check_of_proper .message hbody, bind, Except.bind, pure,
    Except.pure]; rfl, ?_⟩
  rw [MessageView.IsFlat]
  exact ⟨oneofs_flat hbody, extensions_flat hbody, hnested.messages⟩

mutual
theorem exists_nestedOf_flat (scope : Scope) (level : Level) : (e : Element) → e.Proper scope →
    ∃ n, nestedOf level e = .ok n ∧ n.IsFlat
  | .block head body curly notes, h => by
    have hbody : AllProper head.scope body := h.2
    cases head with
    | message name =>
      obtain ⟨n, hn, hflat⟩ := exists_nestedIn_flat .message .message body hbody
      obtain ⟨m, hm, hmflat⟩ := exists_assemble_flat hflat name hbody curly notes
      refine ⟨_, ?_, Nested.isFlat_message hmflat⟩
      simp [nestedOf, hn, hm, bind, Except.bind, pure, Except.pure]
    | enum name =>
      refine ⟨_, ?_, Nested.isFlat_enum ⟨name, options body, enumFields body, reserves body,
        comments body, curly, notes⟩⟩
      simp [nestedOf, ofEnum, check_of_proper .enum hbody, bind, Except.bind, pure, Except.pure]
    | service name =>
      rw [nestedOf]
      split
      · refine ⟨_, ?_, Nested.isFlat_service (s := ⟨name, options body, rpcs body, comments body,
          curly, notes⟩) (rpcs_flat hbody)⟩
        simp [ofService, check_of_proper .service hbody, bind, Except.bind, pure, Except.pure]
      · exact ⟨{}, rfl, Nested.isFlat_empty⟩
    | oneof name => exact ⟨{}, rfl, Nested.isFlat_empty⟩
    | extend type => exact ⟨{}, rfl, Nested.isFlat_empty⟩
    | rpc r => exact ⟨{}, rfl, Nested.isFlat_empty⟩
  | .comment _, _ => ⟨{}, rfl, Nested.isFlat_empty⟩
  | .statement _ _, _ => ⟨{}, rfl, Nested.isFlat_empty⟩
  | .fragment _, _ => ⟨{}, rfl, Nested.isFlat_empty⟩
  | .file _ _, _ => ⟨{}, rfl, Nested.isFlat_empty⟩

theorem exists_nestedIn_flat (scope : Scope) (level : Level) : (body : List Element) →
    AllProper scope body → ∃ n, nestedIn level body = .ok n ∧ n.IsFlat
  | [], _ => ⟨{}, rfl, Nested.isFlat_empty⟩
  | e :: rest, h => by
    obtain ⟨m, hm, hmflat⟩ := exists_nestedOf_flat scope level e h.1
    obtain ⟨n, hn, hnflat⟩ := exists_nestedIn_flat scope level rest h.2
    exact ⟨m.append n, by simp [nestedIn, hm, hn, bind, Except.bind, pure, Except.pure],
      hmflat.append hnflat⟩
end

/-- A file whose bodies hold what they may has a view, and what is left of its bodies is flat. -/
theorem exists_ofFile_flat {f : File} (h : AllProper .file f.body) :
    ∃ v, ofFile f = .ok v ∧ v.IsFlat := by
  obtain ⟨n, hn, hflat⟩ := exists_nestedIn_flat .file .file f.body h
  refine ⟨_, by simp [ofFile, hn, check_of_proper .file h, bind, Except.bind, pure,
    Except.pure]; rfl, ?_⟩
  exact ⟨hflat.messages, hflat.services, extensions_flat h⟩

end View

end ProtoIdl
