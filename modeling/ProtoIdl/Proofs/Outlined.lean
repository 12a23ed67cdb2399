import ProtoIdl.Proofs.Grammar.Stated
import ProtoIdl.Proofs.Recovery.Statements
import ProtoIdl.Proofs.Tree.Outline
/-!
# Outlines show the tree

Every label is on one line and starts with no blank. It is put together from what was read: names and
numbers are made of the characters of words, a string ends on the line where it starts, and joining
literals puts no newline between them (`Spelling.newline_of_isStrLit`); the texts of literals and of
endpoints are made of these again. So the lines of an outline are told by its newlines, and the tree of
declarations by the blanks at their start. Main statement: `outline_mirrors`.
-/
namespace ProtoIdl

open Spelling
open Scan (isNumberTail)
open Description (Fields)
open Grammar (isMessageType_cases isOptionName_cases)

/-! ## Texts on one line -/

namespace Spelling

variable {w : String}

theorem oneLine_of_wordChars (h : w.toList.all isWordChar = true) : OneLine w := by
  intro hmem
  exact absurd (List.all_eq_true.1 h _ hmem) (by decide)

theorem oneLine_of_numberTail (h : w.toList.all isNumberTail = true) : OneLine w :=
  oneLine_of_wordChars (all_wordChar (fun _ hx => hx) h)

theorem oneLine_of_isIdent (h : isIdent w.toList = true) : OneLine w :=
  oneLine_of_wordChars (all_wordChar (fun _ => isNumberTail_of_isIdentChar) (all_of_isIdent h))

theorem oneLine_of_isStrLit (h : isStrLit w.toList = true) : OneLine w := by
  obtain ⟨q, hq, hw, hcloses⟩ := isStrLit_cases h
  have hquote : '\n' ≠ q := by
    rintro rfl
    exact absurd hq (by decide)
  have hinner : '\n' ∉ inner w.toList := by
    refine closes_induction hq (P := fun u => '\n' ∉ u) (by simp) (fun x u _ hx _ hu => ?_)
      (fun x u hx hu => ?_) hcloses
    · simp [hu, hx.symm]
    · have hescape : '\n' ≠ x := by
        rintro rfl
        exact absurd hx (by decide)
      simp [hu, hescape]
  rw [OneLine, hw]
  simp [hquote, hinner]

theorem oneLine_of_isValue (h : isValue w = true) : OneLine w := by
  rcases isValue_cases h with h | h
  · exact oneLine_of_isStrLit h
  · exact oneLine_of_wordChars h.2

theorem oneLine_of_isIntLit (h : isIntLit (dropSign w.toList) = true) : OneLine w :=
  oneLine_of_wordChars (all_wordChar_of_dropSign (all_of_isIntLit h))

/-- The name of a type is made of the characters of words and of dots. -/
theorem all_of_isMessageType (h : isMessageType (nameTokens w) = true) :
    w.toList ≠ [] ∧ w.toList.all isNumberTail = true := by
  rcases isMessageType_cases h with ⟨rest, hts, hrest⟩ | h
  · have hname : (String.join rest).toList ≠ [] ∧ (String.join rest).toList.all isNumberTail = true :=
      all_of_isFullIdent (by rwa [nameTokens_join hrest])
    have hdot : ".".toList = ['.'] := rfl
    rw [← join_nameTokens w, hts, String.join_cons, String.toList_append, hdot]
    refine ⟨List.cons_ne_nil _ _, ?_⟩
    rw [List.all_append, hname.2]
    decide
  · exact all_of_isFullIdent h

theorem oneLine_of_isFullIdent (h : isFullIdent (nameTokens w) = true) : OneLine w :=
  oneLine_of_numberTail (all_of_isFullIdent h).2

theorem oneLine_of_isMessageType (h : isMessageType (nameTokens w) = true) : OneLine w :=
  oneLine_of_numberTail (all_of_isMessageType h).2

theorem oneLine_of_isOptionName (h : isOptionName (nameTokens w) = true) : OneLine w := by
  rcases isOptionName_cases h with h | ⟨inner, rest, hts, hinner, hrest⟩
  · exact oneLine_of_isFullIdent h
  · have hname : OneLine (String.join inner) :=
      oneLine_of_isFullIdent (by rwa [nameTokens_join hinner])
    have hdots : OneLine (String.join rest) := oneLine_of_numberTail (all_of_isDots hrest)
    rw [← join_nameTokens w, hts, String.join_append, String.join_cons, String.join_cons]
    simp +decide [hname, hdots]

end Spelling

/-! ## Literals and endpoints -/

section
variable {isName : String → Bool}

mutual
theorem Literal.oneLine_render (hname : AreWords isName) : (l : Literal) →
    l.isWellFormed isName = true → OneLine l.render
  | .constant text, h => oneLine_of_isValue h
  | .list items, h => by
    have hitems : OneLine (" ".intercalate items) := oneLine_intercalate (by decide)
      fun item hitem => oneLine_of_isStrLit (List.all_eq_true.1 h item hitem)
    rw [Literal.render]
    simp +decide [hitems]
  | .group entries, h => by
    have hentries := Entries.oneLine_render hname entries h
    rw [Literal.render]
    simp +decide [hentries]

theorem Entries.oneLine_render (hname : AreWords isName) : (es : Entries) →
    es.areWellFormed isName = true → OneLine es.render
  | .nil, _ => by
    rw [Entries.render]
    decide
  | .cons name value comma rest, h => by
    simp only [Entries.areWellFormed, Bool.and_eq_true] at h
    obtain ⟨⟨hkey, hvalue⟩, hrest⟩ := h
    have hword := oneLine_of_numberTail (hname name hkey).2
    have hvalue := Literal.oneLine_render hname value hvalue
    have hrest := Entries.oneLine_render hname rest hrest
    rw [Entries.render]
    cases comma <;> simp +decide [hword, hvalue, hrest]
end

end

theorem Description.Fields.Makes.oneLine {fs : Fields} {e : Endpoint} (h : fs.Makes e) :
    OneLine e.constant := by
  have hwords : AreWords Description.isFieldName := fun w hw =>
    all_of_isFullIdent (Bool.and_eq_true_iff.1 hw).1
  rw [h.constant_eq, ← Description.Value.render_literal]
  exact Literal.oneLine_render hwords _ h.wellFormed

/-! ## Labels -/

variable {permissive : Bool}

theorem Setting.Legible.oneLine {s : Setting} (h : s.Legible permissive) :
    OneLine (s.name ++ " = " ++ s.constant) := by
  have hname := oneLine_of_isOptionName h.name
  have hvalue : OneLine s.constant := by
    rcases h.value with h | ⟨-, l, hl, hrender⟩
    · exact oneLine_of_isValue h
    · rw [hrender]
      exact Literal.oneLine_render areWords_isKey l hl.wellFormed
  simp +decide [hname, hvalue]

theorem oneLine_settingsLabel {ss : List Setting} (h : ∀ s ∈ ss, s.Legible permissive) :
    OneLine (View.settingsLabel ss) := by
  have hlist : OneLine (", ".intercalate (ss.map fun s => s.name ++ " = " ++ s.constant)) :=
    oneLine_intercalate (by decide) (List.forall_mem_map.2 fun s hs => (h s hs).oneLine)
  unfold View.settingsLabel
  split
  · decide
  · simp +decide [hlist]

theorem NumberRange.Spelled.oneLine {r : NumberRange} (h : r.Spelled) : OneLine r.render := by
  have hfirst := oneLine_of_isIntLit h.first
  have hlast : OneLine r.last := by
    rcases h.last with h | h | h
    · rw [h]
      decide
    · rw [h]
      decide
    · exact oneLine_of_isIntLit h
  unfold NumberRange.render
  split
  · exact hfirst
  · simp +decide [hfirst, hlast]

/-- What is made of the characters of words is a label. -/
theorem isLabel_of_numberTail {w : String}
    (h : w.toList ≠ [] ∧ w.toList.all isNumberTail = true) : IsLabel w where
  ne_empty hempty := h.1 (String.toList_eq_nil_iff.2 hempty)
  head hhead := by
    have hblank := List.all_eq_true.1 h.2 ' ' (List.mem_of_mem_head? hhead)
    exact absurd hblank (by decide)
  oneLine := oneLine_of_numberTail h.2

theorem isLabel_of_isIdent {w : String} (h : isIdent w.toList = true) : IsLabel w := by
  refine isLabel_of_numberTail (all_of_isFullIdent ?_)
  rw [nameTokens_ident h, isFullIdent, h]
  rfl

theorem isLabel_of_isFieldType {w : String} (h : isFieldType (nameTokens w) = true) : IsLabel w :=
  isLabel_of_numberTail (all_of_isMessageType (Grammar.isFieldType_messageType h))

/-- What stands behind the type of a field. -/
theorem Numbered.isLabel {name number : String} {ss : List Setting}
    (h : Numbered permissive name number ss) {v : String} (hv : IsLabel v) :
    IsLabel (v ++ name ++ " = " ++ number ++ View.settingsLabel ss) :=
  (((hv.append (oneLine_of_isIdent h.name)).append (by decide)).append
    (oneLine_of_wordChars (all_of_isIntLit h.number))).append (oneLine_settingsLabel h.settings)

theorem Import.isLabel {i : Import} (h : isStrLit i.location.toList = true) :
    IsLabel (View.statementLabel (.importing i)) := by
  have hlocation : OneLine i.location := oneLine_of_isStrLit h
  have hword (v : Visibility) : IsLabel ("import " ++ v.word) := by
    cases v <;> decide
  show IsLabel (if _ then _ else _)
  split
  · exact IsLabel.append (by decide) hlocation
  · exact ((hword _).append (by decide)).append hlocation

theorem OptionSetting.Legible.isLabel {o : OptionSetting} (h : o.Legible permissive) :
    IsLabel (View.statementLabel (.option o)) := by
  have hname : IsLabel ("option " ++ o.name) :=
    IsLabel.append (by decide) (oneLine_of_isOptionName h.name)
  refine (hname.append (by decide)).append ?_
  rcases h.value with ⟨hnone, hvalue⟩ | ⟨-, e, fs, hsome, hfs⟩
  · rw [hnone]
    exact oneLine_of_isValue hvalue
  · rw [hsome]
    exact hfs.oneLine

theorem Field.Legible.isLabel {f : Field} (h : f.Legible permissive) :
    IsLabel (View.statementLabel (.field f)) := by
  have htype : IsLabel ((if f.isRepeated then "repeated " else "") ++ f.type) := by
    have htype := isLabel_of_isFieldType h.type
    split
    · exact IsLabel.append (by decide) htype.oneLine
    · rwa [String.empty_append]
  exact h.numbered.isLabel (htype.append (by decide))

theorem MapField.Legible.isLabel {f : MapField} (h : f.Legible permissive) :
    IsLabel (View.statementLabel (.mapField f)) := by
  have hkey : OneLine f.keyType := by
    have hall : ∀ w ∈ Grammar.keyTypes, OneLine w := by decide
    exact hall _ h.keyType
  have hkeys : IsLabel ("map<" ++ f.keyType ++ ", ") :=
    (IsLabel.append (by decide) hkey).append (by decide)
  exact h.numbered.isLabel
    ((hkeys.append (isLabel_of_isFieldType h.type).oneLine).append (by decide))

theorem EnumField.Legible.isLabel {f : EnumField} (h : f.Legible permissive) :
    IsLabel (View.statementLabel (.enumField f)) := by
  have hnumber := oneLine_of_isIntLit (Grammar.isEnumNumber_cases h.number).1
  exact (((isLabel_of_isIdent h.name).append (by decide)).append hnumber).append
    (oneLine_settingsLabel h.settings)

theorem Reserved.Legible.isLabel {r : Reserved} (h : r.Legible) :
    IsLabel (View.statementLabel (.reserved r)) := by
  refine IsLabel.append (by decide) (oneLine_intercalate (by decide) fun w hw => ?_)
  split at hw
  · obtain ⟨a, ha, rfl⟩ := List.mem_map.1 hw
    exact (h.ranges a ha).oneLine
  · exact oneLine_of_isStrLit (h.names w hw)

/-- The line of a statement that is read. -/
theorem Statement.Legible.isLabel {s : Statement} (h : s.Legible permissive) :
    IsLabel (View.statementLabel s) := by
  cases s with
  | version v =>
    have htext : v.text = "proto3" := h
    show IsLabel ("syntax \"" ++ v.text ++ "\"")
    rw [htext]
    decide
  | importing i => exact Import.isLabel h
  | package p => exact IsLabel.append (by decide) (oneLine_of_isFullIdent h)
  | option o => exact OptionSetting.Legible.isLabel h
  | field f => exact Field.Legible.isLabel h
  | mapField f => exact MapField.Legible.isLabel h
  | enumField f => exact EnumField.Legible.isLabel h
  | reserved r => exact Reserved.Legible.isLabel h

theorem RpcType.oneLine_label {t : RpcType} (h : t.isWellFormed = true) :
    OneLine (View.rpcTypeLabel t) := by
  rw [RpcType.isWellFormed, Bool.and_eq_true] at h
  have htype := oneLine_of_isMessageType h.1
  rw [View.rpcTypeLabel]
  cases t.isStream <;> simp +decide [htype]

/-- The line of a block that is read. -/
theorem Head.isLabel {head : Head} (h : head.isWellFormed = true) :
    IsLabel (View.headLabel head) := by
  cases head with
  | oneof name | enum name | message name | service name =>
    exact IsLabel.append (by decide) (oneLine_of_isIdent h)
  | extend type => exact IsLabel.append (by decide) (oneLine_of_isMessageType h)
  | rpc r =>
    rw [Head.isWellFormed, Bool.and_eq_true, Bool.and_eq_true] at h
    obtain ⟨⟨hname, hrequest⟩, hresponse⟩ := h
    have hrpc : IsLabel ("rpc " ++ r.name) := IsLabel.append (by decide) (oneLine_of_isIdent hname)
    exact ((hrpc.append (RpcType.oneLine_label hrequest)).append (by decide)).append
      (RpcType.oneLine_label hresponse)

/-! ## Outlines -/

section
variable {opts : Grammar.Options} {bytes : List UInt8} {file : String} {f : File}

mutual
/-- The lines of an element of a file that is read have labels. -/
theorem isLabel_lines (hf : parse opts bytes file = .ok f) (depth : Nat) : (e : Element) →
    f.Has (.element e) → ∀ l ∈ Outlined.linesAll depth e.outlined, IsLabel l.label
  | .comment _, _ => List.forall_mem_nil _
  | .statement s notes, h => by
    have hs : s.Legible opts.permissive := parse_states hf h
    rw [Element.outlined, Outlined.linesAll_singleton, Outlined.lines]
    exact List.forall_mem_singleton.2 hs.isLabel
  | .block head body curly notes, h => by
    have hhead : head.isWellFormed = true := parse_states hf h
    have hbody (e : Element) (he : e ∈ body) : f.Has (.element e) :=
      h.part (List.mem_append_right _ (List.mem_map_of_mem he))
    rw [Element.outlined, Outlined.linesAll_singleton, Outlined.lines]
    exact List.forall_mem_cons.2 ⟨Head.isLabel hhead, isLabel_linesAll hf (depth + 1) body hbody⟩
  | .fragment _, _ => List.forall_mem_nil _
  | .file _ _, _ => List.forall_mem_nil _

theorem isLabel_linesAll (hf : parse opts bytes file = .ok f) (depth : Nat) : (es : List Element) →
    (∀ e ∈ es, f.Has (.element e)) → ∀ l ∈ Outlined.linesAll depth (Element.outlinedAll es), IsLabel l.label
  | [], _ => List.forall_mem_nil _
  | e :: es, h => by
    obtain ⟨he, hes⟩ := List.forall_mem_cons.1 h
    rw [Element.outlinedAll, Outlined.linesAll_append]
    exact List.forall_mem_append.2 ⟨isLabel_lines hf depth e he, isLabel_linesAll hf depth es hes⟩
end

end

/-- The first line of an outline. -/
def titleLine (title : String) : String := "# " ++ if title = "" then "<input>" else title

theorem outline_mirrors {opts : Grammar.Options} {bytes : List UInt8} {file : String} {f : File}
    (hf : parse opts bytes file = .ok f) {title : String} (htitle : OneLine title) :
    ∃ text ls, View.outline f title = .ok text ∧
      ls = Outlined.linesAll 0 (Element.outlinedAll f.elements) ∧
      ls.length = (View.walkFile (fun _ => false) f).countP View.Visit.isDeclaration ∧
      text.toList = ((titleLine title).toList :: ls.map Outlined.lineChars).flatMap (· ++ ['\n']) ∧
      Comment.splitLines text.toList =
        (titleLine title).toList :: ls.map Outlined.lineChars ++ [[]] ∧
      (∀ l ∈ ls, IsLabel l.label) ∧
      Outlined.readBack text = Element.outlinedAll f.elements := by
  have hproper := parse_allProper hf
  have hlabels : ∀ l ∈ Outlined.linesAll 0 (Element.outlinedAll f.elements), IsLabel l.label :=
    isLabel_linesAll hf 0 f.elements fun e he => .top he
  have hfirst : '\n' ∉ (titleLine title).toList := by
    have hline : OneLine (titleLine title) := by
      unfold titleLine
      split <;> simp +decide [htitle]
    exact hline
  have htext := Outlined.toList_text (titleLine title)
    (Outlined.linesAll 0 (Element.outlinedAll f.elements))
  refine ⟨_, _, View.outline_eq hproper title, rfl, View.length_linesAll hproper, htext,
    Outlined.splitLines_text htext hfirst hlabels, hlabels, ?_⟩
  exact (Outlined.readBack_text htext hfirst hlabels).trans (Outlined.plant_linesAll 0 _)

/-- Nested blocks, comments in between, joined strings and a field without settings. -/
def outlinedText : String :=
  "syntax = 'proto3';\n// a\nmessage M \x7b\n oneof o \x7b string a = 1; /* b */ \x7d // c\n" ++
    " reserved 'x' \"y\\n'\"; \x7d\nservice S \x7b rpc R (stream .M) returns (M); \x7d"

theorem outline_mirrors_sample : ∃ f text, parse {} (Utf8.encode outlinedText.toList) "m.proto" = .ok f ∧
    OneLine "m.proto" ∧ View.outline f "m.proto" = .ok text ∧
    Comment.splitLines text.toList = ["# m.proto", "syntax \"proto3\"", "message M", "  oneof o",
      "    string a = 1", "  reserved 'xy\\n\\''", "service S",
      "  rpc R(stream .M) returns (M)", ""].map String.toList ∧
    Outlined.readBack text = Element.outlinedAll f.elements := by
  have h : (parse {} (Utf8.encode outlinedText.toList) "m.proto").toOption.any (fun f =>
      (Outlined.linesAll 0 (Element.outlinedAll f.elements)).map Outlined.lineChars ==
        ["syntax \"proto3\"", "message M", "  oneof o", "    string a = 1",
          "  reserved 'xy\\n\\''", "service S", "  rpc R(stream .M) returns (M)"].map
            String.toList) = true := by
    decide +kernel
  obtain ⟨f, hf, hlines⟩ := exists_ok h
  have htitle : OneLine "m.proto" := by decide
  obtain ⟨text, ls, htext, rfl, -, -, hsplit, -, hread⟩ := outline_mirrors hf htitle
  rw [beq_iff_eq.1 hlines] at hsplit
  exact ⟨f, text, hf, htitle, htext, hsplit, hread⟩

end ProtoIdl
