import ProtoIdl.Proofs.Grammar.Endpoints
import ProtoIdl.Proofs.Reserved
/-!
# Statements and heads as they are read

`Statement.Legible` says how the parts of a statement are spelled that a reader answers: not only that
each of them is a name, a number, a string or a value, but also that a word in front is none that the
reader looks for. So the type of a field that is not repeated does not start with `repeated`, and the
one of an rpc without a stream not with `stream`; both rest on the same word being read again when it
was put back (`Grammar.optionally_sat`). A value between curly brackets occurs only where the reader is
permissive. For heads `Head.isWellFormed` says all of this. Main statement: `parse_states`.
-/
namespace ProtoIdl

open Spelling
open Scan (wordKind)
open Description (Fields)

/-! ## Legible statements -/

/-- A setting has a name and a value; the value may be the text of a literal. -/
structure Setting.Legible (permissive : Bool) (s : Setting) : Prop where
  name : isOptionName (nameTokens s.name) = true
  value : isValue s.constant = true ∨
    permissive = true ∧ ∃ l : Literal, l.Legible ∧ s.constant = l.render

/-- An option has a name and a value, or an endpoint in the place of the value. -/
structure OptionSetting.Legible (permissive : Bool) (o : OptionSetting) : Prop where
  name : isOptionName (nameTokens o.name) = true
  value : o.endpoint = none ∧ isValue o.constant = true ∨
    permissive = true ∧ ∃ e fs, o.endpoint = some e ∧ Fields.Makes fs e

/-- What comes behind the type of a field. -/
structure Numbered (permissive : Bool) (name number : String) (settings : List Setting) : Prop where
  name : isIdent name.toList = true
  number : isIntLit number.toList = true
  settings : ∀ s ∈ settings, s.Legible permissive

/-- Without `repeated` in front, the first word of the type is not that. -/
structure Field.Legible (permissive : Bool) (f : Field) : Prop where
  type : isFieldType (nameTokens f.type) = true
  first : f.isRepeated = false → startsWith ["repeated"] (nameTokens f.type) = false
  numbered : Numbered permissive f.name f.number f.settings

structure MapField.Legible (permissive : Bool) (f : MapField) : Prop where
  keyType : f.keyType ∈ Grammar.keyTypes
  type : isFieldType (nameTokens f.type) = true
  numbered : Numbered permissive f.name f.number f.settings

structure EnumField.Legible (permissive : Bool) (f : EnumField) : Prop where
  name : isIdent f.name.toList = true
  number : isEnumNumber f.number.toList = true
  settings : ∀ s ∈ f.settings, s.Legible permissive

/-- Numbers or names are reserved, and not both. -/
structure Reserved.Legible (r : Reserved) : Prop where
  one : r.ranges ≠ [] ∧ r.names = [] ∨ r.ranges = [] ∧ r.names ≠ []
  ranges : ∀ a ∈ r.ranges, a.Spelled
  names : ∀ w ∈ r.names, isStrLit w.toList = true

/-- The statement is spelled as it is read. -/
def Statement.Legible (permissive : Bool) : Statement → Prop
  | .version v => v.text = "proto3"
  | .importing i => isStrLit i.location.toList = true
  | .package p => isFullIdent (nameTokens p.name) = true
  | .option o => o.Legible permissive
  | .field f => f.Legible permissive
  | .mapField f => f.Legible permissive
  | .enumField f => f.Legible permissive
  | .reserved r => r.Legible

/-! ## Tokens of names -/

namespace Spelling

variable {first : String} {ts us : List String}

/-- No word of a name is a character that is none of a word. -/
theorem ne_of_isDots {t : String} (h : isDots ts = true) (hdot : t ≠ ".")
    (ht : isIdent t.toList = false) : t ∉ ts := by
  induction ts using isDots.induct with
  | case1 => simp
  | case2 => cases h
  | case3 dot part rest ih =>
    simp only [isDots, Bool.and_eq_true, beq_iff_eq] at h
    obtain ⟨⟨rfl, hpart⟩, hrest⟩ := h
    simp only [List.mem_cons, not_or]
    refine ⟨hdot, ?_, ih hrest⟩
    rintro rfl
    rw [ht] at hpart
    cases hpart

theorem ne_of_isFullIdent {t : String} (h : isFullIdent ts = true) (hdot : t ≠ ".")
    (ht : isIdent t.toList = false) : t ∉ ts := by
  obtain ⟨first, rest, rfl, hfirst, hrest⟩ := isFullIdent_cases h
  rw [List.mem_cons, not_or]
  refine ⟨?_, ne_of_isDots hrest hdot ht⟩
  rintro rfl
  rw [ht] at hfirst
  cases hfirst

theorem startsWith_of_isFullIdent {t : String} (h : isFullIdent ts = true) (hdot : t ≠ ".")
    (ht : isIdent t.toList = false) : startsWith [t] ts = false := by
  obtain ⟨first, rest, rfl, -, -⟩ := isFullIdent_cases h
  rw [← Bool.not_eq_true, startsWith_cons, List.mem_singleton]
  rintro rfl
  exact ne_of_isFullIdent h hdot ht List.mem_cons_self

theorem isMessageType_of_isFullIdent (h : isFullIdent ts = true) : isMessageType ts = true := by
  obtain ⟨first, rest, rfl, hfirst, -⟩ := isFullIdent_cases h
  have hdot : startsWith ["."] (first :: rest) = false := by
    rw [← Bool.not_eq_true, startsWith_cons, List.mem_singleton]
    rintro rfl
    exact absurd hfirst (by decide +kernel)
  rw [isMessageType, hdot]
  exact h

theorem isMessageType_dot (h : isFullIdent ts = true) : isMessageType ("." :: ts) = true := by
  rw [isMessageType, if_pos (startsWith_cons.2 List.mem_cons_self)]
  exact h

/-- The tokens of the name of a type, with a dot in front or without one. -/
theorem nameTokens_dot (h : isFullIdent ts = true) :
    nameTokens ("." ++ String.join ts) = "." :: ts := by
  rw [nameTokens_symbol (x := '.') rfl (by decide), nameTokens_join h]

/-- The tokens of a name with brackets in it. -/
theorem nameTokens_brackets (h : isFullIdent ts = true) (hus : isDots us = true) :
    nameTokens ("(" ++ String.join ts ++ ")" ++ String.join us) = "(" :: ts ++ ")" :: us := by
  have hclose : nameTokens (")" ++ String.join us) = ")" :: us := by
    rw [nameTokens_symbol (x := ')') rfl (by decide), nameTokens_dots hus]
  rw [String.append_assoc, String.append_assoc, nameTokens_symbol (x := '(') rfl (by decide),
    nameTokens_append, nameTokens_join h, hclose]
  · rfl
  · intro x _ y hy
    have hparen : ")".toList = [')'] := rfl
    rw [String.toList_append, hparen] at hy
    obtain rfl : ')' = y := by simpa using hy
    exact Bool.and_false _

theorem isOptionName_brackets (h : isFullIdent ts = true) (hus : isDots us = true) :
    isOptionName ("(" :: ts ++ ")" :: us) = true := by
  have hopen : startsWith ["("] ("(" :: (ts ++ ")" :: us)) = true :=
    startsWith_cons.2 List.mem_cons_self
  have hclose : startsWith [")"] (")" :: us) = true := startsWith_cons.2 List.mem_cons_self
  have hts : ∀ t ∈ ts, (t != ")") = true := by
    intro t ht
    rw [bne_iff_ne]
    rintro rfl
    exact ne_of_isFullIdent h (by decide) (by decide +kernel) ht
  have hstop : (")" != ")") = false := by decide
  rw [isOptionName, List.cons_append, if_pos hopen, List.tail_cons,
    List.takeWhile_append_of_pos hts, List.dropWhile_append_of_pos hts,
    List.takeWhile_cons, List.dropWhile_cons, hstop]
  simp [h, hus, hclose]

theorem isOptionName_of_isFullIdent (h : isFullIdent ts = true) : isOptionName ts = true := by
  rw [isOptionName, startsWith_of_isFullIdent h (by decide) (by decide +kernel)]
  exact h

/-! ## Numbers -/

/-- A number that may have a sign has none if it starts with none. -/
theorem isIntLit_of_unsigned {w : String} (h : isSignedInt w = true)
    (hsign : Grammar.sign? w = none) : isIntLit w.toList = true := by
  unfold isSignedInt at h
  cases hw : w.toList with
  | nil =>
    rw [hw] at h
    cases h
  | cons x rest =>
    rw [Grammar.sign?, hw] at hsign
    have hx : isSign x = false := by
      simpa [isSign, Option.filter] using hsign
    rw [hw, dropSign, if_neg (by simp [hx])] at h
    exact h

theorem isEnumNumber_of_sign {w : String} (h : isSignedInt w = true)
    (hsign : Grammar.sign? w ≠ some '+') : isEnumNumber w.toList = true := by
  unfold isSignedInt at h
  cases hw : w.toList with
  | nil =>
    rw [hw] at h
    cases h
  | cons x rest =>
    rw [hw, dropSign] at h
    rw [Grammar.sign?, hw] at hsign
    split at h
    · next hx =>
      rcases Scan.isSign_cases hx with rfl | rfl
      · exact absurd rfl hsign
      · exact h
    · next hx =>
      have hminus : x ≠ '-' := by
        rintro rfl
        exact hx rfl
      unfold isEnumNumber
      split
      · next heq => exact absurd (List.cons.inj heq).1 hminus
      · exact h

end Spelling

namespace Grammar

open Reading

variable {e : Cursor} {r : Reader}

/-! ## Names -/

/-- The first token of the name is a dot, or the word that comes next. -/
def StartsNext (r : Reader) (name : String) : Prop :=
  (nameTokens name).head? = some "." ∨ (r.next .plain).token.kind = .ident ∧
    (nameTokens name).head? = some (r.next .plain).token.text

/-- A name does not start with a word that does not come next. -/
theorem StartsNext.startsWith {name w : String} (h : StartsNext r name) (hw : w ≠ ".")
    (hnext : (r.next .plain).token.kind = .ident → (r.next .plain).token.text ≠ w) :
    startsWith [w] (nameTokens name) = false := by
  rw [← Bool.not_eq_true]
  rcases h with h | ⟨hk, h⟩
  · rw [startsWith_iff h, List.mem_singleton]
    exact hw.symm
  · rw [startsWith_iff h, List.mem_singleton]
    exact hnext hk

theorem accept_sat (d : Delimiter) : Sat (accept d) r (fun b q => match b with
    | true => q = r.next .plain ∧ (r.next .plain).token.kind = .delimiter d
    | false => (r.next .plain).putBack = .ok q) fun _ => True := by
  refine (next_sat .plain).bind ?_
  rintro kind _ ⟨rfl, rfl⟩
  split
  · next hk => exact sat_pure ⟨rfl, hk⟩
  · exact (putBack_sat .plain).bind fun _ q hq => sat_pure hq.1

theorem messageType_tokens (hr : r.Behind e) : Sat messageType r (fun a _ =>
    isMessageType (nameTokens a.1) = true ∧ StartsNext r a.1) fun _ => True := by
  refine (accept_sat .dot).bind fun b q hq => ?_
  cases b with
  | true =>
    refine sat_position_bind (fullIdent_tokens.bind ?_)
    rintro ⟨_, start⟩ _ ⟨ts, hfull, rfl⟩
    refine sat_pure ?_
    rw [StartsNext, nameTokens_dot hfull]
    exact ⟨isMessageType_dot hfull, .inl rfl⟩
  | false =>
    refine (fullIdent_tokens.and fullIdent_ident).mono ?_
    rintro ⟨_, start⟩ _ ⟨⟨ts, hfull, rfl⟩, hident⟩
    have hk : (r.next .plain).token.kind = .ident := hr.toStands.next_word_again rfl hq hident
    rw [StartsNext, nameTokens_join hfull, (Reader.next_again hk hq .plain).2]
    rw [(Reader.next_again hk hq .plain).2] at hfull
    exact ⟨isMessageType_of_isFullIdent hfull, .inr ⟨hk, rfl⟩⟩

/-- A built-in type is one word, and no other type starts with the word. -/
theorem fieldType_tokens (hr : r.Behind e) : Sat fieldType r (fun a _ =>
    isFieldType (nameTokens a.1) = true ∧ StartsNext r a.1) fun _ => True := by
  refine (next_sat .plain).bind ?_
  rintro kind _ ⟨rfl, rfl⟩
  refine sat_text_bind ?_
  split
  · next h =>
    obtain ⟨hk, hscalar⟩ := h
    have hident := r.spelled_next .plain
    rw [Token.Spelled, hk] at hident
    have hfull : isFullIdent [(r.next .plain).token.text] = true := by
      rw [isFullIdent, show isIdent _ = true from hident]
      rfl
    refine sat_position_bind (sat_pure ?_)
    rw [StartsNext, nameTokens_ident hident, isFieldType, isMessageType_of_isFullIdent hfull]
    exact ⟨rfl, .inr ⟨hk, rfl⟩⟩
  · next hscalar =>
    split
    · next hk =>
      refine (putBack_sat .plain).bind ?_
      rintro _ q ⟨hback, -⟩
      refine (messageType_tokens ((hr.next .plain).putBack hback)).mono ?_
      rintro ⟨name, start⟩ _ ⟨htype, hstart⟩
      -- what comes next now came next before
      have hfirst : StartsNext r name := by
        refine hstart.imp_right ?_
        rintro ⟨hident, hhead⟩
        have hk : (r.next .plain).token.kind = .ident :=
          hr.toStands.next_word_again rfl hback hident
        rw [(Reader.next_again hk hback .plain).2] at hhead
        exact ⟨hk, hhead⟩
      refine ⟨?_, hfirst⟩
      have hword : startsWith scalarTypes (nameTokens name) = false := by
        rw [← Bool.not_eq_true]
        rcases hfirst with h | ⟨hk, h⟩
        · rw [startsWith_iff h]
          decide
        · rw [startsWith_iff h]
          exact fun hmem => hscalar ⟨hk, hmem⟩
      rw [isFieldType, htype, hword]
      simp
    · exact reject_sat trivial

theorem optionName_tokens :
    Sat optionName r (fun name _ => isOptionName (nameTokens name) = true) fun _ => True := by
  have hspelled := r.spelled_next .plain
  refine (next_sat .plain).bind ?_
  rintro kind _ ⟨rfl, rfl⟩
  split
  · next hk =>
    rw [Token.Spelled, hk] at hspelled
    refine sat_text_bind ((dotted_tokens _).mono ?_)
    rintro _ _ ⟨ts, hts, rfl⟩
    have hfull : isFullIdent ((r.next .plain).token.text :: ts) = true := by
      rw [isFullIdent, show isIdent _ = true from hspelled, hts]
      rfl
    rw [← String.join_cons, nameTokens_join hfull]
    exact isOptionName_of_isFullIdent hfull
  · refine fullIdent_tokens.bind ?_
    rintro ⟨_, start⟩ r' ⟨ts, hfull, rfl⟩
    refine sat_after fun _ r'' => (dotted_tokens _).mono ?_
    rintro _ _ ⟨us, hus, rfl⟩
    rw [nameTokens_brackets hfull hus]
    exact isOptionName_brackets hfull hus
  · exact reject_sat trivial

/-! ## Values -/

/-- Without curly brackets every value is a text. -/
theorem constant?_isSome : Sat (constant? false) r (fun a _ => a.1.isSome = true) fun _ => True := by
  refine sat_after fun kind r => sat_position_bind ?_
  split
  · exact sat_text_bind (sat_pure rfl)
  · split
    · exact sat_after fun _ _ => sat_after fun _ _ => sat_pure rfl
    -- behind a sign
    iterate 2
      refine sat_text_bind (sat_after fun number r => ?_)
      split
      · exact sat_text_bind (sat_pure rfl)
      · exact sat_text_bind (sat_pure rfl)
      · exact reject_sat trivial
    · exact reject_sat trivial
    · exact reject_sat trivial

/-- In the place of a value a curly bracket is seen by a permissive reader only. -/
theorem constant?_legible (permissive : Bool) : Sat (constant? permissive) r (fun a _ => match a.1 with
    | some w => isValue w = true
    | none => permissive = true) fun _ => True := by
  have hcurly : Sat (constant? permissive) r (fun a _ => a.1 = none → permissive = true)
      fun _ => True := by
    cases permissive with
    | true => exact (sat_trivial _ r).mono fun _ _ _ _ => rfl
    | false =>
      refine constant?_isSome.mono fun a _ ha hnone => ?_
      rw [hnone] at ha
      cases ha
  refine ((constant?_value permissive).and hcurly).mono ?_
  rintro ⟨_ | w, p⟩ _ ⟨hvalue, hnone⟩
  · exact hnone rfl
  · exact hvalue w rfl

theorem setting_legible (opts : Options) :
    Sat (setting opts) r (fun s _ => s.Legible opts.permissive) fun _ => True := by
  refine optionName_tokens.bind fun name r hname => sat_after fun _ r => ?_
  refine (constant?_legible _).bind ?_
  rintro ⟨_ | w, p⟩ r hvalue
  · exact (literal_legible r).bind fun l r hl => sat_pure ⟨hname, .inr ⟨hvalue, l, hl.1, rfl⟩⟩
  · exact sat_pure ⟨hname, .inl hvalue⟩

theorem settings_legible (opts : Options) :
    Sat (settings opts) r (fun ss _ => ∀ s ∈ ss, s.Legible opts.permissive) fun _ => True := by
  refine sat_after fun b r => ?_
  split
  · refine (setting_legible opts).bind fun first r hfirst => ?_
    refine sat_repeatFrom (I := fun ss _ => ∀ s ∈ ss, s.Legible opts.permissive)
      (by simpa using hfirst) (fun ss r hss => ?_) trivial
    refine sat_after fun kind r => ?_
    split
    · exact sat_pure hss
    · exact (setting_legible opts).bind fun s r hs =>
        sat_pure (List.forall_mem_append.2 ⟨hss, List.forall_mem_singleton.2 hs⟩)
    · exact reject_sat trivial
  · exact sat_pure (List.forall_mem_nil _)

/-! ## Numbers -/

theorem fieldNumber_spelled :
    Sat fieldNumber r (fun w _ => isIntLit w.toList = true) fun _ => True := by
  have hspelled := r.spelled_next .number
  refine (next_sat .number).bind ?_
  rintro kind _ ⟨rfl, rfl⟩
  refine sat_text_bind ?_
  split
  · next h =>
    rw [Token.Spelled, h.1] at hspelled
    exact sat_pure (isIntLit_of_unsigned hspelled h.2)
  · exact reject_sat trivial

/-- What comes behind the type of a field, up to the semicolon. -/
theorem numbered_legible (opts : Options) {α : Type} (item : String → String → List Setting → α)
    (start : Position) (expected : String) :
    Sat (do
      let name ← expectIdent expected
      expectDelimiter .equals "="
      let number ← fieldNumber
      let settings ← settings opts
      let notes ← finish start
      return { item := item name number settings, notes : Noted α }) r
      (fun n _ => ∃ name number settings, Numbered opts.permissive name number settings ∧
        n.item = item name number settings) fun _ => True :=
  (expectIdent_spelled expected).bind fun _ _ hname => sat_after fun _ _ =>
    fieldNumber_spelled.bind fun _ _ hnumber => (settings_legible opts).bind fun _ _ hsettings =>
      sat_after fun _ _ => sat_pure ⟨_, _, _, ⟨hname, hnumber, hsettings⟩, rfl⟩

/-! ## Words in front -/

/-- Where the keyword is not read, the word that comes next is another. -/
theorem optionally_sat {α : Type} {k : Keyword} {f : Option Position → Reading α}
    {Q : α → Reader → Prop} (hr : r.Behind e)
    (hf : ∀ (first : Option Position) (q : Reader), q.Behind e → (first = none →
      (q.next .plain).token.kind = .ident → (q.next .plain).token.text ≠ k.word) →
        Sat (f first) q Q fun _ => True) : Sat (optionally k f) r Q fun _ => True := by
  refine (next_sat .keyword).bind ?_
  rintro kind _ ⟨rfl, rfl⟩
  refine sat_position_bind ?_
  split
  · exact hf _ _ (hr.next .keyword) nofun
  · next hk =>
    refine (putBack_sat .keyword).bind fun _ q ⟨hback, _⟩ => ?_
    refine hf none q ((hr.next .keyword).putBack hback) fun _ hident hword => hk ?_
    rw [hr.toStands.next_word_again rfl hback hident, hword, wordKind_keyword]

theorem rpcType_legible (hr : r.Behind e) :
    Sat rpcType r (fun t r' => r'.Behind e ∧ t.isWellFormed = true) fun _ => True := by
  have hopen : Keeps (staysBehind e) (expectDelimiter .leftParen "(") := keeps_expectDelimiter _ _
  have htype : Keeps (staysBehind e) messageType := keeps_messageType
  have hclose : Keeps (staysBehind e) (expectDelimiter .rightParen ")") :=
    keeps_expectDelimiter _ _
  rw [rpcType_eq]
  refine (hopen r hr).bind fun _ r hr => optionally_sat hr fun first q hq hfirst => ?_
  refine ((htype q hq).and (messageType_tokens hq)).bind ?_
  rintro ⟨name, start⟩ q' ⟨hq', hname, hstart⟩
  refine sat_position_bind ((hclose q' hq').bind fun _ q'' hq'' => sat_pure ⟨hq'', ?_⟩)
  rw [RpcType.isWellFormed, hname]
  cases first with
  | some p => rfl
  | none =>
    have hword := hstart.startsWith (w := Keyword.kwStream.word) (by decide) (hfirst rfl)
    change startsWith ["stream"] _ = _ at hword
    simp [hword]

/-! ## Statements -/

theorem importBehind_legible {mode : Mode} (visibility : Visibility) (start : Position) :
    Sat (importBehind visibility start (r.next mode).token.kind) (r.next mode)
      (fun n _ => isStrLit n.item.location.toList = true) fun _ => True := by
  have hspelled := r.spelled_next mode
  unfold importBehind
  split
  · exact (reject_sat trivial).bind_of_fails
  · next hk =>
    rw [Token.Spelled, Decidable.not_not.1 hk] at hspelled
    exact sat_text_bind (sat_after fun _ _ => sat_pure hspelled)

theorem importing_legible :
    Sat importing r (fun n _ => isStrLit n.item.location.toList = true) fun _ => True := by
  rw [importing_eq]
  refine sat_after fun start r => (next_sat _).bind ?_
  rintro kind _ ⟨rfl, rfl⟩
  split
  · exact importBehind_legible _ start
  · refine (next_sat .string).bind ?_
    rintro kind _ ⟨rfl, rfl⟩
    exact importBehind_legible _ start

theorem option_legible (opts : Options) (hr : r.Behind e) :
    Sat (option opts) r (fun n _ => n.item.Legible opts.permissive) fun _ => True := by
  have hstart : Keeps (staysBehind e) (expectKeyword .kwOption) := keeps_expectKeyword _
  have hname : Keeps (staysBehind e) optionName := keeps_optionName
  have hequals : Keeps (staysBehind e) (expectDelimiter .equals "=") := keeps_expectDelimiter _ _
  have hconst : Keeps (staysBehind e) (constant? opts.permissive) := keeps_constant? _
  refine (hstart r hr).bind fun start r hr => ((hname r hr).and optionName_tokens).bind ?_
  rintro name r ⟨hr, hname⟩
  refine (hequals r hr).bind fun _ r hr => ((hconst r hr).and (constant?_legible _)).bind ?_
  rintro ⟨_ | w, p⟩ r ⟨hr, hvalue⟩
  · have hendpoint : Sat endpoint r (fun x _ => ∃ fs : Fields, fs.Makes x) fun _ => True := by
      refine sat_get.bind ?_
      rintro _ r ⟨rfl, rfl⟩
      exact (endpointAtMost_makes _ hr).mono fun _ _ h => h.2
    refine hendpoint.bind fun x r ⟨fs, hfs⟩ => sat_pure_bind (sat_after fun _ _ => sat_pure ?_)
    exact ⟨hname, .inr ⟨hvalue, x, fs, rfl, hfs⟩⟩
  · exact sat_pure_bind (sat_after fun _ _ => sat_pure ⟨hname, .inl ⟨rfl, hvalue⟩⟩)

theorem field_legible (opts : Options) (hr : r.Behind e) :
    Sat (field opts) r (fun n _ => n.item.Legible opts.permissive) fun _ => True := by
  rw [field_eq]
  refine optionally_sat hr fun first q hq hfirst => (fieldType_tokens hq).bind ?_
  rintro ⟨type, start⟩ q' ⟨htype, hstart⟩
  refine (numbered_legible opts (fun name number settings =>
    { type, name, number, isRepeated := first.isSome, settings : Field }) _ "fieldName").mono ?_
  rintro ⟨_, notes⟩ _ ⟨name, number, ss, hnumbered, rfl⟩
  refine ⟨htype, fun hplain => ?_, hnumbered⟩
  exact hstart.startsWith (w := Keyword.kwRepeated.word) (by decide)
    (hfirst (Option.isSome_eq_false_iff.1 hplain |> Option.isNone_iff_eq_none.1))

theorem keyType_mem : Sat keyType r (fun w _ => w ∈ keyTypes) fun _ => True := by
  refine sat_after fun kind r => sat_text_bind ?_
  split
  · next h => exact sat_pure h.2
  · exact reject_sat trivial

theorem mapField_legible (opts : Options) (hr : r.Behind e) :
    Sat (mapField opts) r (fun n _ => n.item.Legible opts.permissive) fun _ => True := by
  have hstart : Keeps (staysBehind e) (expectKeyword .kwMap) := keeps_expectKeyword _
  have hopen : Keeps (staysBehind e) (expectDelimiter .leftAngle "<") := keeps_expectDelimiter _ _
  have hkey : Keeps (staysBehind e) keyType := keeps_keyType
  have hcomma : Keeps (staysBehind e) (expectDelimiter .comma ",") := keeps_expectDelimiter _ _
  refine (hstart r hr).bind fun start r hr => (hopen r hr).bind fun _ r hr =>
    ((hkey r hr).and keyType_mem).bind fun key r ⟨hr, hmem⟩ => (hcomma r hr).bind fun _ r hr =>
      (fieldType_tokens hr).bind ?_
  rintro ⟨type, _⟩ r ⟨htype, -⟩
  refine sat_after fun _ r => (numbered_legible opts (fun name number settings =>
    { keyType := key, type, name, number, settings : MapField }) start "mapName").mono ?_
  rintro ⟨_, notes⟩ _ ⟨name, number, ss, hnumbered, rfl⟩
  exact ⟨hmem, htype, hnumbered⟩

theorem enumField_legible (opts : Options) :
    Sat (enumField opts) r (fun n _ => n.item.Legible opts.permissive) fun _ => True := by
  refine (expectIdent_spelled _).bind fun name r hname => sat_position_bind ?_
  refine sat_after fun _ r => ?_
  have hspelled := r.spelled_next .number
  refine (next_sat .number).bind ?_
  rintro kind _ ⟨rfl, rfl⟩
  refine sat_text_bind ?_
  split
  · exact (reject_sat trivial).bind_of_fails
  · next h =>
    rw [not_or, Decidable.not_not] at h
    rw [Token.Spelled, h.1] at hspelled
    exact (settings_legible opts).bind fun ss r hss => sat_after fun _ _ =>
      sat_pure ⟨hname, isEnumNumber_of_sign hspelled h.2, hss⟩

/-- Whatever is read as a statement is spelled as it is read. -/
theorem answers_legible (opts : Options) :
    Answers (staysBehind e) opts (Statement.Legible opts.permissive) where
  version _ _ := by
    refine sat_after fun _ _ => sat_after fun _ _ => sat_after fun _ _ => sat_after fun _ _ =>
      sat_after fun _ _ => ?_
    split
    · exact (reject_sat trivial).bind_of_fails
    · refine sat_after fun _ _ => sat_after fun _ _ => ?_
      split
      · exact (reject_sat trivial).bind_of_fails
      · exact sat_after fun _ _ => sat_pure rfl
  importing _ _ := importing_legible
  package _ _ := by
    refine sat_after fun _ _ => fullIdent_tokens.bind ?_
    rintro ⟨_, _⟩ _ ⟨ts, hfull, rfl⟩
    refine sat_after fun _ _ => sat_pure ?_
    rw [Statement.Legible, nameTokens_join hfull]
    exact hfull
  option _ hr := option_legible opts hr
  field _ hr := field_legible opts hr
  mapField _ hr := mapField_legible opts hr
  enumField _ _ := enumField_legible opts
  reserved _ _ := (reserved_proper.and reserved_text).mono fun _ _ ⟨hone, hranges, hnames, _⟩ =>
    ⟨hone, hranges, hnames⟩

/-! ## Heads -/

theorem rpcHead_legible (hr : r.Behind e) :
    Sat rpcHead r (fun h _ => (Head.rpc h).isWellFormed = true) fun _ => True := by
  have hname : Keeps (staysBehind e) (expectIdent "rpcName") := keeps_expectIdent _
  have hreturns : Keeps (staysBehind e) (expectKeyword .kwReturns) := keeps_expectKeyword _
  refine ((hname r hr).and (expectIdent_spelled _)).bind fun name r ⟨hr, hname⟩ =>
    (rpcType_legible hr).bind fun request r ⟨hr, hrequest⟩ => (hreturns r hr).bind fun _ r hr =>
      (rpcType_legible hr).bind fun response r ⟨_, hresponse⟩ => sat_pure ?_
  rw [Head.isWellFormed, hname, hrequest, hresponse]
  rfl

/-- Whatever is read in front of a body is spelled as it is read. -/
theorem titles_wellFormed : Titles (staysBehind e) fun h => h.isWellFormed = true where
  oneof _ _ := expectIdent_spelled _
  enum _ _ := expectIdent_spelled _
  extend _ hr := (messageType_tokens hr).mono fun _ _ h => h.1
  message _ _ := expectIdent_spelled _
  service _ _ := expectIdent_spelled _
  rpc _ hr := rpcHead_legible hr

end Grammar

/-! ## Files -/

/-- Statements and heads in a file that is read are spelled as they are read. -/
theorem parse_states {opts : Grammar.Options} {bytes : List UInt8} {file : String} {f : File}
    (hf : parse opts bytes file = .ok f) {e : Element} (he : f.Has (.element e)) :
    Node.States (Statement.Legible opts.permissive) (fun h => h.isWellFormed = true) (.element e) := by
  obtain ⟨r, hr⟩ := parse_ok hf
  have hstart := Reader.behind_ofBytes file (parse_whole hf)
  have hcollects := (Grammar.file_collects (staysBehind_queueless _).sheds
    (C := fun _ => True) (fun _ _ _ _ => trivial) (Grammar.answers_legible opts)
    Grammar.titles_wellFormed hstart).ok hr
  exact (he.all hcollects.nodes).self

end ProtoIdl
