import ProtoIdl.Proofs.Progress
import ProtoIdl.Proofs.Tree.Outline
/-!
# What is read stands where it may

The table of productions follows the grammar (`Grammar.holds_of_production?`), so a body that is
read holds what it may. That the fields of a oneof are not repeated rests on the token in front of
an element: it is looked at to choose the production, and read again by the field. Main statement:
`parse_proper`.
-/
namespace ProtoIdl

namespace Grammar

open Reading
open Element (AllProper)

variable {e : Cursor} {n : Nat} {r : Reader}

/-! ## The table -/

theorem holds_of_production? {scope : Scope} {k : Kind} {p : Production}
    (h : scope.production? k = some p) : p ∈ bodyHolds scope := by
  revert h
  fun_cases Scope.production? scope k <;> simp_all [bodyHolds]

/-- In front of a field of a oneof there is no `repeated`. -/
theorem ne_repeated_of_oneof {k : Kind} (h : Scope.oneof.production? k = some .field) :
    k ≠ .keyword .kwRepeated := by
  rintro rfl
  cases h

/-! ## Statements -/

/-- What comes first does not matter to what follows. -/
theorem sat_after {α β : Type} {x : Reading α} {f : α → Reading β} {Q : β → Reader → Prop}
    (h : ∀ a r, Sat (f a) r Q fun _ => True) : Sat (x >>= f) r Q fun _ => True :=
  (sat_trivial x r).bind fun a r _ => h a r

theorem field_proper (opts : Options) (h : (r.next .keyword).token.kind ≠ .keyword .kwRepeated) :
    Sat (field opts) r (fun f _ => f.item.isRepeated = false) fun _ => True := by
  rw [field_eq]
  refine (next_sat .keyword).bind ?_
  rintro kind _ ⟨rfl, rfl⟩
  refine sat_after fun first r => ?_
  rw [if_neg h]
  exact sat_after fun _ _ => sat_after fun _ _ => sat_after fun _ _ => sat_after fun _ _ =>
    sat_after fun _ _ => sat_after fun _ _ => sat_after fun _ _ => sat_pure rfl

theorem keyType_proper : Sat keyType r (fun w _ => w ∈ mapKeyTypes) fun _ => True := by
  have hkeys : ∀ w ∈ keyTypes, w ∈ mapKeyTypes := by decide
  refine sat_after fun kind _ => sat_after fun word _ => ?_
  split
  · next h => exact sat_pure (hkeys _ h.2)
  · exact reject_sat trivial

theorem mapField_proper (opts : Options) :
    Sat (mapField opts) r (fun f _ => f.item.keyType ∈ mapKeyTypes) fun _ => True :=
  sat_after fun _ _ => sat_after fun _ _ => keyType_proper.bind fun _ _ hkey =>
    sat_after fun _ _ => sat_after fun _ _ => sat_after fun _ _ => sat_after fun _ _ =>
      sat_after fun _ _ => sat_after fun _ _ => sat_after fun _ _ => sat_after fun _ _ =>
        sat_pure hkey

theorem ranges_proper : Sat ranges r (fun l _ => l ≠ []) fun _ => True := by
  refine sat_after fun first r =>
    sat_repeatFrom (I := fun l _ => l ≠ []) (List.cons_ne_nil _ _) (fun l r hl => ?_) trivial
  refine sat_after fun b r => ?_
  cases b with
  | true => exact sat_after fun _ _ => sat_pure (List.append_ne_nil_of_left_ne_nil hl _)
  | false => exact sat_pure hl

theorem reservedNames_proper : Sat reservedNames r (fun l _ => l ≠ []) fun _ => True := by
  refine sat_repeatFrom (I := fun _ _ => True) trivial (fun l r _ => ?_) trivial
  refine sat_after fun name r => sat_after fun b r => ?_
  cases b with
  | true => exact sat_pure trivial
  | false => exact sat_pure (List.append_ne_nil_of_right_ne_nil _ (List.cons_ne_nil _ _))

theorem reserved_proper : Sat reserved r (fun d _ => d.item.ranges ≠ [] ∧ d.item.names = [] ∨
    d.item.ranges = [] ∧ d.item.names ≠ []) fun _ => True := by
  refine sat_after fun start r => sat_after fun kind r => ?_
  split
  · exact reservedNames_proper.bind fun names _ hn =>
      sat_pure_bind (sat_after fun _ _ => sat_pure (Or.inr ⟨rfl, hn⟩))
  · exact ranges_proper.bind fun ranges _ hr =>
      sat_pure_bind (sat_after fun _ _ => sat_pure (Or.inl ⟨hr, rfl⟩))

/-! ## Bodies -/

theorem version_not_held (scope : Scope) : .version ∉ bodyHolds scope := by
  cases scope <;> decide

section
variable {body : Scope → Reading Body}
  (hbody : ∀ scope r, r.Left e n →
    Sat (body scope) r (fun b _ => AllProper scope b.elements) fun _ => True)
include hbody

theorem block_proper {scope : Scope} (head : Head) (start : Position)
    (hp : head.production ∈ bodyHolds scope) (hr : r.Left e n) :
    Sat (block body head.scope head start) r (fun d _ => d.Proper scope) fun _ => True :=
  (hbody _ r hr).bind fun _ _ hb => sat_pure ⟨hp, hb⟩

theorem rpc_proper {scope : Scope} (hp : .rpc ∈ bodyHolds scope) (hr : r.Left e n) :
    Sat (rpc body) r (fun d _ => d.Proper scope) fun _ => True := by
  refine ((strides_expectKeyword _).lasts.goes hr).bind fun start r hr =>
    ((strides_expectIdent _).lasts.goes hr).bind fun name r hr =>
      (lasts_rpcType.goes hr).bind fun request r hr =>
        ((strides_expectKeyword _).lasts.goes hr).bind fun _ r hr =>
          (lasts_rpcType.goes hr).bind fun response r hr => (next_sat .plain).bind ?_
  rintro kind _ ⟨rfl, rfl⟩
  split
  · exact sat_after fun _ _ => sat_pure ⟨hp, trivial⟩
  · refine (putBack_sat .plain).bind fun _ r' ⟨hback, _⟩ => ?_
    exact block_proper hbody (.rpc ⟨name, request, response⟩) start hp (hr.putBack rfl hback).1
  · exact reject_sat trivial

/-- A block that starts with a keyword. -/
theorem keyword_block_proper {α : Type} {scope : Scope} (k : Keyword) {x : Reading α}
    (hx : Lasts e n x) (inner : Scope) (head : α → Head)
    (hp : ∀ a, (head a).production ∈ bodyHolds scope ∧ (head a).scope = inner) (hr : r.Left e n) :
    Sat (do let start ← expectKeyword k; block body inner (head (← x)) start) r
      (fun d _ => d.Proper scope) fun _ => True := by
  refine ((strides_expectKeyword k).lasts.goes hr).bind fun start r hr =>
    (hx.goes hr).bind fun a r hr => ?_
  obtain ⟨hheld, rfl⟩ := hp a
  exact block_proper hbody (head a) start hheld hr

theorem declaration_proper (opts : Options) {scope : Scope} {p : Production}
    (hp : p ∈ bodyHolds scope) (hr : r.Left e n)
    (hfield : scope = .oneof → p = .field → (r.next .keyword).token.kind ≠ .keyword .kwRepeated) :
    Sat (declaration opts body p) r (fun d _ => d.Proper scope) fun _ => True := by
  have hident (expected : String) : Lasts e n (expectIdent expected) :=
    (strides_expectIdent _).lasts
  cases p with
  | version => exact absurd hp (version_not_held scope)
  | importing => exact sat_after fun _ _ => sat_pure ⟨hp, trivial⟩
  | package => exact sat_after fun _ _ => sat_pure ⟨hp, trivial⟩
  | option => exact sat_after fun _ _ => sat_pure ⟨hp, trivial⟩
  | enumField => exact sat_after fun _ _ => sat_pure ⟨hp, trivial⟩
  | field =>
    by_cases hs : scope = .oneof
    · exact (field_proper opts (hfield hs rfl)).bind fun _ _ hf => sat_pure ⟨hp, fun _ => hf⟩
    · exact sat_after fun _ _ => sat_pure ⟨hp, fun h => absurd h hs⟩
  | mapField => exact (mapField_proper opts).bind fun _ _ hf => sat_pure ⟨hp, hf⟩
  | reserved => exact reserved_proper.bind fun _ _ hd => sat_pure ⟨hp, hd⟩
  | oneof => exact keyword_block_proper hbody _ (hident _) _ _ (fun _ => ⟨hp, rfl⟩) hr
  | enum => exact keyword_block_proper hbody _ (hident _) _ _ (fun _ => ⟨hp, rfl⟩) hr
  | extend =>
    exact keyword_block_proper hbody _ strides_messageType.lasts _ (fun a => .extend a.1)
      (fun _ => ⟨hp, rfl⟩) hr
  | message => exact keyword_block_proper hbody _ (hident _) _ _ (fun _ => ⟨hp, rfl⟩) hr
  | service => exact keyword_block_proper hbody _ (hident _) _ _ (fun _ => ⟨hp, rfl⟩) hr
  | rpc => exact rpc_proper hbody hp hr

theorem element_proper (opts : Options) (keep : Bool) (comments : List Comment) {scope : Scope}
    {p : Production} (hp : p ∈ bodyHolds scope) (hr : r.Left e n)
    (hfield : scope = .oneof → p = .field → (r.next .keyword).token.kind ≠ .keyword .kwRepeated) :
    Sat (element opts body keep comments p) r (fun es _ => AllProper scope es) fun _ => True := by
  refine (declaration_proper hbody opts hp hr hfield).bind fun d _ hd => sat_after fun a _ => ?_
  obtain ⟨notes, strays⟩ := a
  have hstrays : AllProper scope (if keep then strays.map .comment else []) := by
    split
    · exact Element.allProper_comments strays
    · exact trivial
  exact sat_pure (hstrays.append ⟨hd.mapNotes _, trivial⟩)

/-- A round keeps the elements read so far, and the last one gives them away. -/
theorem bodyRound_proper (opts : Options) (scope : Scope) (curly : Option Comment)
    {elements : List Element} (helements : AllProper scope elements) (hlasts : ∀ k < n, ∀ scope,
      Lasts e k (body scope)) (hr : r.Left e n) :
    Sat (bodyRound opts body scope curly elements) r (fun a r' => match a with
      | .again es => AllProper scope es ∧ r'.Left e n
      | .done b => AllProper scope b.elements) fun _ => True := by
  refine (lasts_commentsAhead.goes hr).bind fun comments r hr =>
    ((peek_left rfl hr).mono_error fun _ _ => trivial).bind ?_
  rintro kind r ⟨hr, hkind, -, -⟩
  split
  · refine sat_after fun _ _ => sat_after fun _ _ => sat_pure ?_
    show AllProper scope (if opts.keepComments then _ else _)
    split
    · exact helements.append (Element.allProper_comments comments)
    · exact helements
  · exact ((lasts_next rfl).goes hr).bind fun _ _ hr => sat_pure ⟨helements, hr⟩
  · split
    · exact sat_after fun _ _ => reject_sat trivial
    · next p hp =>
      have hread := element_proper hbody opts opts.keepComments comments
        (holds_of_production? hp) hr fun hs hf => by
          subst hs hf
          exact hkind ▸ ne_repeated_of_oneof hp
      have hgoes := (strides_element hlasts opts opts.keepComments comments p).lasts.goes hr
      exact (hread.and hgoes).bind fun read _ ⟨hread, hr⟩ =>
        sat_pure ⟨helements.append hread, hr⟩

end

theorem bodyAtMost_proper (opts : Options) (depth : Nat) (scope : Scope) (hn : n < depth)
    (hr : r.Left e n) : Sat (bodyAtMost opts depth scope) r
      (fun b _ => AllProper scope b.elements) fun _ => True := by
  induction depth generalizing n scope r with
  | zero => omega
  | succ depth ih =>
    refine (((strides_expectDelimiter _ _) n (Nat.le_refl n) r hr).mono_error
      fun _ _ => trivial).bind ?_
    rintro _ r ⟨k, hk, hr⟩
    refine (lasts_position.goes hr).bind fun place r hr =>
      ((lasts_commentBehind place).goes hr).bind fun curly r hr => ?_
    refine sat_repeatFrom (I := fun es r => AllProper scope es ∧ r.Left e k) ⟨trivial, hr⟩
      (fun es r ⟨hes, hr⟩ => ?_) trivial
    refine (bodyRound_proper (fun scope r hr => ih scope (by omega) hr) opts scope curly hes
      (fun j hj scope => lasts_bodyAtMost opts depth (by omega) scope) hr).mono ?_
    rintro (es | b) r h <;> exact h

theorem body_proper (opts : Options) (scope : Scope) (hr : r.Left e n) :
    Sat (Grammar.body opts scope) r (fun b _ => AllProper scope b.elements) fun _ => True := by
  refine sat_get.bind ?_
  rintro _ r ⟨rfl, rfl⟩
  refine bodyAtMost_proper opts _ scope ?_ ⟨hr.whole, hr.reached, Nat.le_refl _, hr.rounds⟩
  have := hr.rounds
  rw [Reader.rounds]
  omega

/-! ## Files -/

theorem fileRound_proper (opts : Options) {f : File} (hf : AllProper .file f.body)
    (hr : r.Left e n) :
    Sat (fileRound opts f) r (fun a r' => match a with
      | .again g => AllProper .file g.body ∧ r'.Left e n
      | .done g => AllProper .file g.body) fun _ => True := by
  refine (lasts_commentsAhead.goes hr).bind fun comments r hr =>
    ((peek_left rfl hr).mono_error fun _ _ => trivial).bind ?_
  rintro kind r ⟨hr, -, -, -⟩
  split
  · exact sat_pure (hf.append (Element.allProper_comments comments))
  · exact ((lasts_next rfl).goes hr).bind fun _ _ hr => sat_pure ⟨hf, hr⟩
  · split
    · exact sat_after fun _ _ => reject_sat trivial
    · refine (strides_version.lasts.goes hr).bind fun v r hr =>
        ((lasts_attach comments v.notes).goes hr).bind fun a r hr => ?_
      exact sat_pure ⟨Element.allProper_comments a.2, hr⟩
  · split
    · exact sat_after fun _ _ => reject_sat trivial
    · next p hp =>
      have hread := element_proper (fun scope r hr => body_proper opts scope hr) opts true comments
        (holds_of_production? hp) hr nofun
      have hgoes := (strides_element (fun _ _ scope => lasts_body opts scope) opts true comments
        p).lasts.goes hr
      exact (hread.and hgoes).bind fun read _ ⟨hread, hr⟩ => sat_pure ⟨hf.append hread, hr⟩

theorem file_proper (opts : Options) (hr : r.Left e n) :
    Sat (file opts) r (fun f _ => AllProper .file f.body) fun _ => True := by
  have hempty : AllProper .file [] := trivial
  refine sat_repeatFrom (I := fun f r => AllProper .file f.body ∧ r.Left e n) ⟨hempty, hr⟩
    (fun f r ⟨hf, hr⟩ => (fileRound_proper opts hf hr).mono ?_) trivial
  rintro (g | g) r h <;> exact h

end Grammar

theorem parse_allProper {opts : Grammar.Options} {bytes : List UInt8} {file : String} {f : File}
    (h : parse opts bytes file = .ok f) : Element.AllProper .file f.body := by
  obtain ⟨r, hr⟩ := parse_ok h
  have hend := (Grammar.file_charted opts (Grammar.charted_ofBytes bytes file)).ok hr
  exact (Grammar.file_proper opts (Reader.left_ofBytes file hend)).ok hr

/-- The bodies of a file that is read hold what they may, at every depth. So the file has an
unordered view and an outline. -/
theorem parse_proper (opts : Grammar.Options) (bytes : List UInt8) (file : String) (f : File)
    (h : parse opts bytes file = .ok f) : Element.AllProper .file f.body ∧
      (∃ v, View.ofFile f = .ok v) ∧ ∀ title, ∃ text, View.outline f title = .ok text := by
  have hf := parse_allProper h
  exact ⟨hf, f.exists_view hf, fun title => ⟨_, View.outline_eq hf title⟩⟩

theorem parse_proper_sample : ∃ f, parse {} sampleText "m.proto" = .ok f ∧ f.body.length = 3 ∧
    (∀ e ∈ f.body, e.Proper .file) ∧ (∃ v, View.ofFile f = .ok v) ∧
      ∃ text, View.outline f "m.proto" = .ok text := by
  obtain ⟨f, hf, -, hlen, -⟩ := parse_sample
  obtain ⟨hproper, hview, houtline⟩ := parse_proper {} sampleText "m.proto" f hf
  exact ⟨f, hf, hlen, Element.allProper_iff.1 hproper, hview, houtline "m.proto"⟩

end ProtoIdl
