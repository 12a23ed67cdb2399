import ProtoIdl.Proofs.Grammar.Landing
import ProtoIdl.Proofs.Grammar.Optional
import ProtoIdl.Proofs.Places
/-!
# Permissive readers

A permissive reader does what a strict one does, up to the first curly bracket in the place of a
constant. There the strict one fails, and whatever the permissive one reads from there on, its tree
shows it: an option has an endpoint, or the constant of a setting starts with a curly bracket.
`Reading.Allows` says this of two steps; it is kept along sequences and loops because what is read
only grows. Main statement: `parse_permissive`.
-/
namespace ProtoIdl

/-! ## Values between curly brackets -/

/-- A constant that starts with a curly bracket. -/
def isCurly (constant : String) : Bool := constant.toList.head? = some '\x7b'

/-- The value of a setting is between curly brackets. -/
def Setting.isCurly (s : Setting) : Bool := ProtoIdl.isCurly s.constant

/-- A statement that holds a value between curly brackets: an option with an endpoint, or a constant
that starts with a curly bracket. -/
def Statement.isCurly : Statement → Bool
  | .option o => o.endpoint.isSome || ProtoIdl.isCurly o.constant
  | .field f => f.settings.any Setting.isCurly
  | .mapField f => f.settings.any Setting.isCurly
  | .enumField f => f.settings.any Setting.isCurly
  | .version _ | .importing _ | .package _ | .reserved _ => false

mutual
/-- An element with a value between curly brackets, at whatever depth. -/
def Element.isCurly : Element → Bool
  | .statement s _ => s.isCurly
  | .block _ body _ _ => Element.anyCurly body
  | .file _ body => Element.anyCurly body
  | .comment _ | .fragment _ => false

/-- One of the elements has a value between curly brackets. -/
def Element.anyCurly : List Element → Bool
  | [] => false
  | e :: es => e.isCurly || Element.anyCurly es
end

/-- A file with a value between curly brackets. -/
def File.isCurly (f : File) : Bool := Element.anyCurly f.body

namespace Element

theorem anyCurly_eq (es : List Element) : anyCurly es = es.any isCurly := by
  induction es with
  | nil => rfl
  | cons e es ih => rw [anyCurly, ih, List.any_cons]

theorem anyCurly_append (es ds : List Element) :
    anyCurly (es ++ ds) = (anyCurly es || anyCurly ds) := by
  simp only [anyCurly_eq, List.any_append]

/-- What is read behind the elements takes nothing back. -/
theorem anyCurly_append_left {es : List Element} (h : anyCurly es = true) (ds : List Element) :
    anyCurly (es ++ ds) = true := by
  rw [anyCurly_append, h, Bool.true_or]

theorem anyCurly_append_right {ds : List Element} (h : anyCurly ds = true) (es : List Element) :
    anyCurly (es ++ ds) = true := by
  rw [anyCurly_append, h, Bool.or_true]

theorem isCurly_mapNotes (f : Notes → Notes) (e : Element) : (e.mapNotes f).isCurly = e.isCurly := by
  cases e <;> rfl

end Element

/-! ## Two steps -/

namespace Reading

variable {α β σ : Type}

/-- Whatever the step answers has the property. -/
def Always (x : Reading α) (C : α → Prop) : Prop := ∀ r, Sat x r (fun a _ => C a) fun _ => True

/-- The step `y` does what `x` does, or else `x` fails, and `C` holds of whatever `y` answers. -/
def Allows (x y : Reading α) (C : α → Prop) : Prop :=
  ∀ r, x r = y r ∨ (∃ e r', x r = .error e r') ∧ Sat y r (fun a _ => C a) fun _ => True

theorem always_pure {C : α → Prop} {a : α} (h : C a) : Always (pure a) C := fun _ => sat_pure h

theorem Always.bind {C : β → Prop} {x : Reading α} {f : α → Reading β} (h : ∀ a, Always (f a) C) :
    Always (x >>= f) C := fun r => (sat_trivial x r).bind fun a r _ => h a r

theorem Always.bind_of {B : α → Prop} {C : β → Prop} {x : Reading α} {f : α → Reading β}
    (hx : Always x B) (h : ∀ a, B a → Always (f a) C) : Always (x >>= f) C :=
  fun r => (hx r).bind fun a r ha => h a ha r

theorem always_reject (expected : String) (C : α → Prop) : Always (reject expected) C :=
  fun _ => reject_sat trivial

theorem Allows.refl (x : Reading α) (C : α → Prop) : Allows x x C := fun _ => .inl rfl

/-- What follows keeps the property. -/
theorem Allows.bind {B : α → Prop} {C : β → Prop} {x y : Reading α} {f g : α → Reading β}
    (h : Allows x y B) (hf : ∀ a, Allows (f a) (g a) C) (hg : ∀ a, B a → Always (g a) C) :
    Allows (x >>= f) (y >>= g) C := by
  intro r
  rcases h r with hr | ⟨⟨e, r', hr⟩, hy⟩
  · cases hx : x r with
    | ok a r' =>
      rw [run_bind hx, run_bind (hr ▸ hx)]
      rcases hf a r' with heq | ⟨⟨e, r'', he⟩, hC⟩
      · exact .inl heq
      · exact .inr ⟨⟨e, r'', he⟩, sat_run_bind (hr ▸ hx) hC⟩
    | error e r' =>
      left
      rw [run_bind_error hx, run_bind_error (hr ▸ hx)]
  · exact .inr ⟨⟨e, r', run_bind_error hr⟩, hy.bind fun a r ha => hg a ha r⟩

theorem Allows.bind_right {C : β → Prop} {x : Reading α} {f g : α → Reading β}
    (hf : ∀ a, Allows (f a) (g a) C) : Allows (x >>= f) (x >>= g) C :=
  (Allows.refl x fun _ => False).bind hf fun _ h => h.elim

theorem allows_reject_bind {C : β → Prop} {f g : α → Reading β} (expected : String) :
    Allows (reject expected >>= f) (reject expected >>= g) C := fun _ => .inl rfl

/-- What `C` says of the end of a round whose state `B` speaks of. -/
def Round.Ends (B : σ → Prop) (C : α → Prop) : Round σ α → Prop
  | .again s => B s
  | .done a => C a

section
variable {B : σ → Prop} {C : α → Prop} {round round' : σ → Reading (Round σ α)}
  (hB : ∀ s, B s → Always (round' s) (Round.Ends B C))
include hB

theorem always_repeatAtMost (n : Nat) {s : σ} (hs : B s) :
    Always (repeatAtMost round' n s) C := fun r =>
  sat_repeatAtMost (fun s r hs => (hB s hs r).mono fun a _ ha => by cases a <;> exact ha)
    trivial n s hs

theorem always_repeatFrom {s : σ} (hs : B s) : Always (repeatFrom s round') C :=
  .bind fun r => always_repeatAtMost hB r.rounds hs

/-- A loop allows what its rounds allow, if no round gives back what an earlier one has taken. -/
theorem allows_repeatFrom (h : ∀ s, Allows (round s) (round' s) (Round.Ends B C)) (s : σ) :
    Allows (repeatFrom s round) (repeatFrom s round') C := by
  have hmost (n : Nat) (s : σ) : Allows (repeatAtMost round n s) (repeatAtMost round' n s) C := by
    induction n generalizing s with
    | zero => exact .refl _ C
    | succ n ih =>
      refine (h s).bind (fun a => ?_) fun a ha => ?_
      · cases a with
        | again s => exact ih s
        | done a => exact .refl _ C
      · cases a with
        | again s => exact always_repeatAtMost hB n ha
        | done a => exact always_pure ha
  exact .bind_right fun r => hmost r.rounds s

end

end Reading

namespace Grammar

open Reading

/-! ## Statements -/

theorem allows_constant? : Allows (constant? false) (constant? true) fun a => a.1 = none := by
  refine .bind_right fun kind => .bind_right fun start => ?_
  by_cases hk : kind = .delimiter .leftBrace
  · subst hk
    refine fun r => .inr ⟨⟨_, r, rfl⟩, ?_⟩
    exact (sat_trivial putBack r).bind fun _ _ _ => sat_pure rfl
  · intro r
    left
    split
    · rfl
    · split
      · rfl
      · rfl
      · rfl
      · contradiction
      · rfl

theorem isCurly_literal : Always literal fun l => isCurly l.render = true := by
  refine .bind fun r => .bind fun entries => always_pure ?_
  rw [Literal.render]
  simp [isCurly]

variable (keepComments : Bool)

theorem allows_option : Allows (option { permissive := false, keepComments })
    (option { permissive := true, keepComments }) fun o => (Statement.option o.item).isCurly = true := by
  refine .bind_right fun start => .bind_right fun name => .bind_right fun _ =>
    allows_constant?.bind (fun _ => .refl _ _) ?_
  rintro ⟨_, place⟩ rfl
  refine .bind fun e => .bind_of (B := fun o => (Statement.option o).isCurly = true)
    (always_pure rfl) fun item h => ?_
  exact .bind fun notes => always_pure h

theorem allows_setting : Allows (setting { permissive := false, keepComments })
    (setting { permissive := true, keepComments }) fun s => s.isCurly = true := by
  refine .bind_right fun name => .bind_right fun _ =>
    allows_constant?.bind (fun _ => .refl _ _) ?_
  rintro ⟨_, place⟩ rfl
  exact isCurly_literal.bind_of fun l hl => always_pure hl

/-- A setting whose value is between curly brackets. -/
def AnyCurly (l : List Setting) : Prop := l.any Setting.isCurly = true

theorem settingsRound_curly (opts : Options) (l : List Setting) (hl : AnyCurly l) :
    Always (settingsRound opts l) (Round.Ends AnyCurly AnyCurly) := by
  refine .bind fun kind => ?_
  split
  · exact always_pure hl
  · refine .bind fun s => always_pure ?_
    exact (List.any_append.trans (by rw [hl, Bool.true_or]) : (l ++ [s]).any Setting.isCurly = true)
  · exact always_reject _ _

theorem allows_settings : Allows (settings { permissive := false, keepComments })
    (settings { permissive := true, keepComments }) AnyCurly := by
  have hround (l : List Setting) : Allows (settingsRound { permissive := false, keepComments } l)
      (settingsRound { permissive := true, keepComments } l) (Round.Ends AnyCurly AnyCurly) := by
    refine .bind_right fun kind => ?_
    split
    · exact .refl _ _
    · refine (allows_setting keepComments).bind (fun s => .refl _ _) fun s hs => always_pure ?_
      simp [Round.Ends, AnyCurly, hs]
    · exact .refl _ _
  have hkept := settingsRound_curly { permissive := true, keepComments }
  refine .bind_right fun isThere => ?_
  split
  · refine (allows_setting keepComments).bind (fun s => allows_repeatFrom hkept hround [s])
      fun s hs => always_repeatFrom hkept ?_
    simp [AnyCurly, hs]
  · exact .refl _ _

theorem allows_field : Allows (field { permissive := false, keepComments })
    (field { permissive := true, keepComments }) fun f => AnyCurly f.item.settings := by
  have hbehind (first : Option Position) :
      Allows (fieldBehind { permissive := false, keepComments } first)
        (fieldBehind { permissive := true, keepComments } first) fun f => AnyCurly f.item.settings :=
    .bind_right fun _ => .bind_right fun _ => .bind_right fun _ => .bind_right fun _ =>
      (allows_settings keepComments).bind (fun _ => .refl _ _) fun _ h =>
        .bind fun _ => always_pure h
  rw [field_eq, field_eq]
  refine .bind_right fun kind => .bind_right fun first => ?_
  split
  · exact hbehind _
  · exact .bind_right fun _ => hbehind _

theorem allows_mapField : Allows (mapField { permissive := false, keepComments })
    (mapField { permissive := true, keepComments }) fun f => AnyCurly f.item.settings := by
  unfold mapField
  exact .bind_right fun _ => .bind_right fun _ => .bind_right fun _ => .bind_right fun _ =>
    .bind_right fun _ => .bind_right fun _ => .bind_right fun _ => .bind_right fun _ =>
    .bind_right fun _ => (allows_settings keepComments).bind (fun _ => .refl _ _)
      fun _ h => .bind fun _ => always_pure h

theorem allows_enumField : Allows (enumField { permissive := false, keepComments })
    (enumField { permissive := true, keepComments }) fun f => AnyCurly f.item.settings := by
  refine .bind_right fun _ => .bind_right fun _ => .bind_right fun _ => .bind_right fun kind =>
    .bind_right fun number => ?_
  split
  · exact allows_reject_bind _
  · exact (allows_settings keepComments).bind (fun _ => .refl _ _) fun _ h =>
      .bind fun _ => always_pure h

/-! ## Elements and bodies -/

section
variable {body body' : Scope → Reading Body}
  (hbody : ∀ scope, Allows (body scope) (body' scope) fun b => Element.anyCurly b.elements = true)
include hbody

theorem allows_block (scope : Scope) (head : Head) (start : Position) :
    Allows (block body scope head start) (block body' scope head start) (·.isCurly = true) :=
  (hbody scope).bind (fun _ => .refl _ _) fun _ h => always_pure h

theorem allows_rpc : Allows (rpc body) (rpc body') (·.isCurly = true) := by
  refine .bind_right fun start => .bind_right fun name => .bind_right fun request =>
    .bind_right fun _ => .bind_right fun response => .bind_right fun kind => ?_
  split
  · exact .refl _ _
  · exact .bind_right fun _ => allows_block hbody _ _ _
  · exact .refl _ _

theorem allows_declaration (p : Production) :
    Allows (declaration { permissive := false, keepComments } body p)
      (declaration { permissive := true, keepComments } body' p) (·.isCurly = true) := by
  have hstatement {α : Type} {wrap : α → Statement} {x y : Reading (Noted α)}
      (h : Allows x y fun n => (wrap n.item).isCurly = true) :
      Allows (do return statement wrap (← x)) (do return statement wrap (← y))
        (·.isCurly = true) := h.bind (fun _ => .refl _ _) fun _ h => always_pure h
  have hkeyword {α : Type} (k : Keyword) (x : Reading α) (scope : Scope) (head : α → Head) :
      Allows (do let start ← expectKeyword k; block body scope (head (← x)) start)
        (do let start ← expectKeyword k; block body' scope (head (← x)) start) (·.isCurly = true) :=
    .bind_right fun _ => .bind_right fun _ => allows_block hbody _ _ _
  cases p with
  | version | importing | package | reserved => exact .refl _ _
  | option => exact hstatement (allows_option keepComments)
  | field => exact hstatement (allows_field keepComments)
  | mapField => exact hstatement (allows_mapField keepComments)
  | enumField => exact hstatement (allows_enumField keepComments)
  | oneof | enum | message | service => exact hkeyword _ _ _ _
  | extend => exact hkeyword _ _ _ fun a : String × Position => .extend a.1
  | rpc => exact allows_rpc hbody

theorem allows_element (keep : Bool) (comments : List Comment) (p : Production) :
    Allows (element { permissive := false, keepComments } body keep comments p)
      (element { permissive := true, keepComments } body' keep comments p)
        (Element.anyCurly · = true) := by
  refine (allows_declaration keepComments hbody p).bind (fun _ => .refl _ _) fun e he =>
    .bind fun a => always_pure ?_
  refine Element.anyCurly_append_right ?_ _
  rw [Element.anyCurly, Element.isCurly_mapNotes, he, Bool.true_or]

theorem allows_bodyRound (scope : Scope) (curly : Option Comment) (es : List Element) :
    Allows (bodyRound { permissive := false, keepComments } body scope curly es)
      (bodyRound { permissive := true, keepComments } body' scope curly es)
        (Round.Ends (Element.anyCurly · = true) fun b => Element.anyCurly b.elements = true) := by
  refine .bind_right fun comments => .bind_right fun kind => ?_
  split
  · exact .refl _ _
  · exact .refl _ _
  · cases scope.production? kind with
    | none => exact .refl _ _
    | some p =>
      refine (allows_element keepComments hbody _ comments p).bind (fun _ => .refl _ _)
        fun read h => always_pure (Element.anyCurly_append_right h es)

end

theorem bodyRound_curly (opts : Options) (body : Scope → Reading Body) (scope : Scope)
    (curly : Option Comment) (es : List Element) (hes : Element.anyCurly es = true) :
    Always (bodyRound opts body scope curly es)
      (Round.Ends (Element.anyCurly · = true) fun b => Element.anyCurly b.elements = true) := by
  refine .bind fun comments => .bind fun kind => ?_
  split
  · refine .bind fun _ => .bind fun _ => always_pure ?_
    cases opts.keepComments with
    | false => exact hes
    | true => exact Element.anyCurly_append_left hes _
  · exact .bind fun _ => always_pure hes
  · cases scope.production? kind with
    | none => exact .bind fun _ => always_reject _ _
    | some p => exact .bind fun read => always_pure (Element.anyCurly_append_left hes read)

theorem allows_bodyAtMost (depth : Nat) (scope : Scope) :
    Allows (bodyAtMost { permissive := false, keepComments } depth scope)
      (bodyAtMost { permissive := true, keepComments } depth scope)
        fun b => Element.anyCurly b.elements = true := by
  induction depth generalizing scope with
  | zero => exact .refl _ _
  | succ depth ih =>
    exact .bind_right fun _ => .bind_right fun _ => .bind_right fun curly =>
      allows_repeatFrom (bodyRound_curly _ _ scope curly)
        (allows_bodyRound keepComments ih scope curly) []

theorem allows_body (scope : Scope) : Allows (body { permissive := false, keepComments } scope)
    (body { permissive := true, keepComments } scope) fun b => Element.anyCurly b.elements = true :=
  .bind_right fun r => allows_bodyAtMost keepComments r.rounds scope

/-! ## Files -/

theorem allows_fileRound (f : File) : Allows (fileRound { permissive := false, keepComments } f)
    (fileRound { permissive := true, keepComments } f)
      (Round.Ends (·.isCurly = true) (·.isCurly = true)) := by
  refine .bind_right fun comments => .bind_right fun kind => ?_
  split
  · exact .refl _ _
  · exact .refl _ _
  · exact .refl _ _
  · cases Scope.file.production? kind with
    | none => exact .refl _ _
    | some p =>
      refine (allows_element keepComments (allows_body keepComments) true comments p).bind
        (fun _ => .refl _ _) fun read h => always_pure (Element.anyCurly_append_right h f.body)

theorem fileRound_curly (opts : Options) (f : File) (hf : f.isCurly = true) :
    Always (fileRound opts f) (Round.Ends (·.isCurly = true) (·.isCurly = true)) := by
  refine .bind fun comments => .bind fun kind => ?_
  split
  · exact always_pure (Element.anyCurly_append_left hf _)
  · exact .bind fun _ => always_pure hf
  · split
    · exact .bind fun _ => always_reject _ _
    · next h =>
      -- a version is read into a file without elements only
      have hempty : f.body = [] := by simpa using fun hne => h (.inr hne)
      rw [File.isCurly, hempty] at hf
      cases hf
  · cases Scope.file.production? kind with
    | none => exact .bind fun _ => always_reject _ _
    | some p => exact .bind fun read => always_pure (Element.anyCurly_append_left hf read)

theorem allows_file : Allows (file { permissive := false, keepComments })
    (file { permissive := true, keepComments }) (·.isCurly = true) :=
  allows_repeatFrom (fileRound_curly _) (allows_fileRound keepComments) {}

end Grammar

open Grammar

/-- A permissive reader reads whatever a strict one does, as the same tree. A tree that it reads is
read by a strict one too, unless some value in it is between curly brackets. -/
theorem parse_permissive (keepComments : Bool) (bytes : List UInt8) (file : String) (f : File) :
    (parse { permissive := false, keepComments } bytes file = .ok f →
      parse { permissive := true, keepComments } bytes file = .ok f) ∧
    (parse { permissive := true, keepComments } bytes file = .ok f → f.isCurly = false →
      parse { permissive := false, keepComments } bytes file = .ok f) := by
  rcases allows_file keepComments (Reader.ofBytes bytes file) with heq | ⟨⟨e, r, herror⟩, hcurly⟩
  · have hparse : parse { permissive := false, keepComments } bytes file =
        parse { permissive := true, keepComments } bytes file := by
      simp only [parse, parseWith, Reading.outcome, heq]
    rw [hparse]
    exact ⟨id, fun h _ => h⟩
  · have hparse : parse { permissive := false, keepComments } bytes file = .error e := by
      simp only [parse, parseWith, Reading.outcome, herror]
    rw [hparse]
    refine ⟨fun h => ?_, fun h hf => ?_⟩
    · cases h
    · obtain ⟨r', hr⟩ := parse_ok h
      have htrue : f.isCurly = true := hcurly.ok hr
      rw [hf] at htrue
      cases htrue

/-- A curly bracket inside a string, which is no value between curly brackets. -/
def quotedText : List UInt8 :=
  Utf8.encode "option a = -1; enum E \x7b A = 0 [b = \"\x7b\"]; \x7d".toList

theorem parse_permissive_sample :
    ∃ f, parse { permissive := false, keepComments := true } quotedText "" = .ok f ∧
      parse { permissive := true, keepComments := true } quotedText "" = .ok f ∧
        f.isCurly = false ∧ f.body.length = 2 := by
  have h : (parse { permissive := true, keepComments := true } quotedText "").toOption.any
      (fun f => f.isCurly == false && decide (f.body.length = 2)) = true := by decide +kernel
  obtain ⟨f, hf, htest⟩ := exists_ok h
  simp only [Bool.and_eq_true, beq_iff_eq, decide_eq_true_eq] at htest
  obtain ⟨hcurly, hlength⟩ := htest
  have hiff := parse_permissive true quotedText "" f
  have hok := hiff.2 hf hcurly
  exact ⟨f, hok, hiff.1 hok, hcurly, hlength⟩

/-- A value between curly brackets is refused by a strict reader, and shows in the tree. -/
example : (parse {} (Utf8.encode "option a = \x7b b: 1 \x7d;".toList) "").toOption.isSome = false ∧
    (parse { permissive := true } (Utf8.encode "option a = \x7b b: 1 \x7d;".toList) "").toOption.any
      File.isCurly = true := by
  decide +kernel

end ProtoIdl
