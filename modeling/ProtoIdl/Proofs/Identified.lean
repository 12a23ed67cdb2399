import ProtoIdl.Proofs.Json.Tree
import ProtoIdl.Proofs.Proper
/-!
# What the JSON text of a file tells

The JSON text of a file tells the whole tree but for one thing. The kind of a declaration is not
written, only its members are; a message, an enum, a service and a oneof have the same ones, and one
of them is not told from another that holds the same elements. `Element.Alike` says that two elements
differ in that only. It does not go deeper: two of these kinds hold no blocks that could be taken for
each other (`bodyHolds_apart`). Main statement: `parse_json_alike`; two files that are not told apart
are in `message_json_service`.
-/
namespace ProtoIdl

open Grammar (Scope Production)

/-- The name of a block whose head is nothing else. -/
def Head.name? : Head → Option String
  | .oneof name | .enum name | .message name | .service name => some name
  | .extend _ | .rpc _ => none

/-- Heads of which each is nothing but the same name. -/
def Head.SameName (h k : Head) : Prop := h.name?.isSome = true ∧ h.name? = k.name?

mutual
/-- Elements that are equal but for the kinds of blocks whose heads are nothing but a name. Such a
block has the same name and holds the same elements as the one in its place. -/
def Element.Alike : Element → Element → Prop
  | .block h body curly notes, e => ∃ k body', e = .block k body' curly notes ∧
    (h = k ∧ Element.AllAlike body body' ∨ h.SameName k ∧ body = body')
  | .comment c, e => e = .comment c
  | .statement s notes, e => e = .statement s notes
  | .fragment g, e => e = .fragment g
  | .file version body, e => e = .file version body

/-- Lists whose elements are alike one by one. -/
def Element.AllAlike : List Element → List Element → Prop
  | [], es => es = []
  | d :: ds, es => ∃ e es', es = e :: es' ∧ d.Alike e ∧ Element.AllAlike ds es'
end

/-- Files with the same version and alike elements. -/
def File.Alike (f g : File) : Prop := f.version = g.version ∧ Element.AllAlike f.body g.body

/-! ## Bodies of blocks of different kinds -/

/-- What is read as a block. -/
def blockProductions : List Production := [.oneof, .enum, .extend, .message, .service, .rpc]

/-- What is read as a block whose head is nothing but a name. -/
def namedProductions : List Production := [.oneof, .enum, .message, .service]

/-- Two kinds of blocks with nothing but a name in their heads hold no blocks that could be taken for
each other. -/
theorem bodyHolds_apart : ∀ s ∈ [Scope.oneof, .enum, .message, .service],
    ∀ s' ∈ [Scope.oneof, .enum, .message, .service], s ≠ s' →
      ∀ p ∈ bodyHolds s, ∀ q ∈ bodyHolds s', p ∈ blockProductions → p ≠ q ∧
        ¬ (p ∈ namedProductions ∧ q ∈ namedProductions) := by
  decide

theorem Head.production_mem (h : Head) : h.production ∈ blockProductions := by
  cases h <;> simp [production, blockProductions]

theorem Head.production_named {h : Head} (hn : h.name?.isSome = true) :
    h.production ∈ namedProductions ∧ h.scope ∈ [Scope.oneof, .enum, .message, .service] := by
  cases h with
  | oneof | enum | message | service => simp [production, scope, namedProductions]
  | extend | rpc => cases hn

theorem Head.eq_of_sameName {h k : Head} (hn : h.SameName k) (hs : h.scope = k.scope) : h = k := by
  obtain ⟨hsome, hname⟩ := hn
  cases h <;> cases k <;> simp_all [name?, scope]

namespace Element

/-- Alike elements in the bodies of two kinds of blocks are equal. -/
theorem eq_of_allAlike {h k : Head} (hn : h.SameName k) (hne : h.scope ≠ k.scope)
    {ds es : List Element} (hd : AllProper h.scope ds) (he : AllProper k.scope es)
    (halike : AllAlike ds es) : ds = es := by
  have hk : k.name?.isSome = true := hn.2 ▸ hn.1
  have hapart := bodyHolds_apart _ (Head.production_named hn.1).2 _ (Head.production_named hk).2 hne
  induction ds generalizing es with
  | nil => exact halike.symm
  | cons d ds ih =>
    obtain ⟨e, es, rfl, hfirst, hrest⟩ := halike
    refine congrArg₂ List.cons ?_ (ih hd.2 he.2 hrest)
    cases d with
    | comment c => exact hfirst.symm
    | statement s notes => exact hfirst.symm
    | block i body curly notes =>
      obtain ⟨j, body', rfl, hblock⟩ := hfirst
      have hij := hapart _ hd.1.1 _ he.1.1 i.production_mem
      rcases hblock with ⟨rfl, -⟩ | ⟨hname, -⟩
      · exact absurd rfl hij.1
      · exact absurd ⟨(Head.production_named hname.1).1,
          (Head.production_named (hname.2 ▸ hname.1)).1⟩ hij.2
    | fragment g => exact hd.1.elim
    | file v body => exact hd.1.elim

end Element

/-! ## The forms of elements -/

namespace Json

theorem head_eq_iff {h k : Head} : head h = head k ↔ h = k ∨ h.SameName k := by
  rcases h with _ | _ | _ | _ | _ | ⟨⟨⟩⟩ <;> rcases k with _ | _ | _ | _ | _ | ⟨⟨⟩⟩ <;>
    simp [head, Head.SameName, Head.name?]

/-- The forms of two blocks are the same if those of their heads and of their elements are, and what
surrounds the blocks is the same. -/
theorem block_eq_iff {h k : Head} {ds es : List Element} {curly curly' : Option Comment}
    {m n : Notes} : element (.block h ds curly m) = element (.block k es curly' n) ↔
      (h = k ∨ h.SameName k) ∧ elements ds = elements es ∧ curly = curly' ∧ m = n := by
  constructor
  · intro heq
    obtain ⟨hmembers, hcurly, hnotes⟩ := blocked_inj heq
    obtain ⟨hhead, hbody⟩ := List.append_inj' hmembers rfl
    refine ⟨head_eq_iff.1 hhead, ?_, hcurly, hnotes⟩
    simpa using hbody
  · rintro ⟨hhead, hbody, rfl, rfl⟩
    rw [element, element, head_eq_iff.2 hhead, hbody]

mutual
/-- Elements with the same JSON form are alike, if they are such as are read. -/
theorem alike_of_element {scope scope' : Scope} : (d e : Element) → d.Proper scope →
    e.Proper scope' → element d = element e → d.Alike e
  | .comment c, e, hd, he, h => by
    cases e with
    | comment c' => exact congrArg Element.comment (json_inj.1 h).symm
    | statement s notes => exact absurd h (comment_ne_noted c _ _)
    | block k body curly notes => exact absurd h (comment_ne_blocked c _ _ _)
    | fragment g => exact he.elim
    | file v body => exact he.elim
  | .statement s notes, e, hd, he, h => by
    cases e with
    | comment c => exact absurd h.symm (comment_ne_noted c _ _)
    | statement t notes' =>
      obtain ⟨hmembers, rfl⟩ := noted_inj h
      rw [statement_inj hmembers]
      rfl
    | block k body curly notes' => exact absurd h (noted_ne_blocked _ _ _ _ _)
    | fragment g => exact he.elim
    | file v body => exact he.elim
  | .block k ds curly notes, e, hd, he, h => by
    cases e with
    | comment c => exact absurd h.symm (comment_ne_blocked c _ _ _)
    | statement t notes' => exact absurd h.symm (noted_ne_blocked _ _ _ _ _)
    | block k' es curly' notes' =>
      obtain ⟨hhead, hbody, rfl, rfl⟩ := block_eq_iff.1 h
      have halike := allAlike_of_elements ds es hd.2 he.2 hbody
      refine ⟨k', es, rfl, ?_⟩
      rcases hhead with rfl | hname
      · exact .inl ⟨rfl, halike⟩
      · by_cases hscope : k.scope = k'.scope
        · exact .inl ⟨Head.eq_of_sameName hname hscope, halike⟩
        · exact .inr ⟨hname, Element.eq_of_allAlike hname hscope hd.2 he.2 halike⟩
    | fragment g => exact he.elim
    | file v body => exact he.elim
  | .fragment g, e, hd, he, h => hd.elim
  | .file v body, e, hd, he, h => hd.elim

theorem allAlike_of_elements {scope scope' : Scope} : (ds es : List Element) →
    Element.AllProper scope ds → Element.AllProper scope' es → elements ds = elements es →
    Element.AllAlike ds es
  | [], [], _, _, _ => rfl
  | [], _ :: _, _, _, h => by cases h
  | _ :: _, [], _, _, h => by cases h
  | d :: ds, e :: es, hd, he, h => by
    obtain ⟨hfirst, hrest⟩ := List.cons_eq_cons.1 h
    exact ⟨e, es, rfl, alike_of_element d e hd.1 he.1 hfirst,
      allAlike_of_elements ds es hd.2 he.2 hrest⟩
end

mutual
/-- Alike elements have the same JSON form. -/
theorem element_of_alike : (d e : Element) → d.Alike e → element d = element e
  | .block k ds curly notes, e, h => by
    obtain ⟨k', es, rfl, ⟨hhead, hbody⟩ | ⟨hname, hbody⟩⟩ := h
    · exact block_eq_iff.2 ⟨.inl hhead, elements_of_allAlike ds es hbody, rfl, rfl⟩
    · exact block_eq_iff.2 ⟨.inr hname, congrArg elements hbody, rfl, rfl⟩
  | .comment c, e, h => congrArg element h.symm
  | .statement s notes, e, h => congrArg element h.symm
  | .fragment g, e, h => congrArg element h.symm
  | .file v body, e, h => congrArg element h.symm

theorem elements_of_allAlike : (ds es : List Element) → Element.AllAlike ds es →
    elements ds = elements es
  | [], es, h => by rw [h]
  | d :: ds, es, h => by
    obtain ⟨e, es', rfl, hfirst, hrest⟩ := h
    rw [elements, elements, element_of_alike d e hfirst, elements_of_allAlike ds es' hrest]
end

/-- Files are told from their texts as far as their elements are. -/
theorem file_eq_iff {f g : File} : (json f).render = (json g).render ↔
    f.version = g.version ∧ elements f.body = elements g.body := by
  rw [render_injective.eq_iff]
  constructor
  · intro h
    simpa using Json.object.inj h
  · rintro ⟨hversion, hbody⟩
    change element _ = element _
    rw [element, element, hversion, hbody]

end Json

/-- Two files that are read have the same JSON text if and only if they are alike: they are equal but
for the kinds of blocks whose heads are nothing but a name. -/
theorem parse_json_alike {opts opts' : Grammar.Options} {bytes bytes' : List UInt8}
    {file file' : String} {f g : File} (hf : parse opts bytes file = .ok f)
    (hg : parse opts' bytes' file' = .ok g) :
    (json f).render = (json g).render ↔ f.Alike g := by
  have hproper := parse_allProper hf
  have hproper' := parse_allProper hg
  rw [Json.file_eq_iff]
  constructor
  · exact fun ⟨hversion, hbody⟩ =>
      ⟨hversion, Json.allAlike_of_elements f.body g.body hproper hproper' hbody⟩
  · exact fun ⟨hversion, hbody⟩ => ⟨hversion, Json.elements_of_allAlike f.body g.body hbody⟩

/-- A message and a service of the same name are alike if they hold the same option. -/
theorem parse_json_alike_sample : ∃ f g,
    parse {} (Utf8.encode "message A \x7b option b = 1; \x7d".toList) "" = .ok f ∧
      parse {} (Utf8.encode "service A \x7b option b = 1; \x7d".toList) "" = .ok g ∧
        (json f).render = (json g).render ∧ f.Alike g := by
  have h : (parse {} (Utf8.encode "message A \x7b option b = 1; \x7d".toList) "").toOption.any
      (fun f => (parse {} (Utf8.encode "service A \x7b option b = 1; \x7d".toList) "").toOption.any
        fun g => decide ((json f).renderAt 0 = (json g).renderAt 0)) = true := by
    decide +kernel
  obtain ⟨f, hf, h⟩ := exists_ok h
  obtain ⟨g, hg, h⟩ := exists_ok h
  have htext : (json f).render = (json g).render := congrArg String.ofList (of_decide_eq_true h)
  exact ⟨f, g, hf, hg, htext, (parse_json_alike hf hg).1 htext⟩

/-- The heads of the blocks of a file. -/
def File.heads (f : File) : List Head :=
  f.body.filterMap fun
    | .block h _ _ _ => some h
    | _ => none

/-- A message and a service with the same name and without elements are not told apart. -/
theorem message_json_service : ∃ f g,
    parse {} (Utf8.encode "message A \x7b\x7d".toList) "" = .ok f ∧
      parse {} (Utf8.encode "service A \x7b\x7d".toList) "" = .ok g ∧
        (json f).render = (json g).render ∧ f ≠ g := by
  have h : (parse {} (Utf8.encode "message A \x7b\x7d".toList) "").toOption.any (fun f =>
      (parse {} (Utf8.encode "service A \x7b\x7d".toList) "").toOption.any fun g =>
        decide ((json f).renderAt 0 = (json g).renderAt 0) && decide (f.heads ≠ g.heads)) = true := by
    decide +kernel
  obtain ⟨f, hf, h⟩ := exists_ok h
  obtain ⟨g, hg, h⟩ := exists_ok h
  simp only [Bool.and_eq_true, decide_eq_true_eq] at h
  refine ⟨f, g, hf, hg, congrArg String.ofList h.1, ?_⟩
  rintro rfl
  exact h.2 rfl

end ProtoIdl
