import ProtoIdl.Proofs.Grammar.Stated
import ProtoIdl.Proofs.Recovery.Texts
/-!
# Labels are read back

A label with a semicolon behind it is the text of a declaration in a spacing of its own: a comma stands
right behind an item, a bracket right in front of one, and a blank between all other words. Where no
value is between curly brackets, the reader of the declaration reads it back, at another place
(`Grammar.statement_reads`, `Grammar.rpc_reads`). The label of a version is no such text.
-/
namespace ProtoIdl

open Spelling View
open Scan (wordKind)

variable {α : Type} {text : α → String} {stop rest w : String} {mode : Mode}

/-! ## Lists -/

/-- What stands behind the first item of a list, up to and with `stop`. -/
def moreText (text : α → String) (stop : String) : List α → String
  | [] => stop
  | a :: items => "," ++ (" " ++ (text a ++ moreText text stop items))

theorem intercalate_text (text : α → String) (stop : String) (a : α) (items : List α) :
    ", ".intercalate ((a :: items).map text) ++ stop = text a ++ moreText text stop items := by
  induction items generalizing a with
  | nil => simp [moreText]
  | cons b items ih =>
    have hcomma : ", " = "," ++ " " := by decide
    rw [List.map_cons, List.map_cons, String.intercalate_cons_cons, ← List.map_cons,
      String.append_assoc, ih, moreText, hcomma]
    simp only [String.append_assoc]

/-- The text starts with a comma, or with what ends a list. -/
def Divides (rest : String) : Prop :=
  ∃ d ∈ [Delimiter.comma, .semicolon, .rightBracket], ∃ u, rest = d.symbol ++ u

theorem divides_semicolon : Divides ";" := ⟨.semicolon, by simp, "", rfl⟩

theorem divides_bracket : Divides "];" := ⟨.rightBracket, by simp, ";", rfl⟩

theorem Divides.more (h : Divides stop) (text : α → String) (items : List α) :
    Divides (moreText text stop items) := by
  cases items with
  | nil => exact h
  | cons a items => exact ⟨.comma, by simp, _, rfl⟩

theorem Divides.separates (h : Divides rest) : Separates rest := by
  obtain ⟨d, hd, u, rfl⟩ := h
  refine separates_symbol ?_ u
  simp only [List.mem_cons, List.not_mem_nil, or_false] at hd
  rcases hd with rfl | rfl | rfl <;> decide

theorem Divides.lexes (h : Divides rest) (mode : Mode) (hn : mode.numbers = false)
    (hs : mode.strings = false) : ∃ d w vs, Lexes mode [rest] (.delimiter d) w vs := by
  obtain ⟨d, hd, u, rfl⟩ := h
  refine ⟨d, _, _, lexes_symbol_text ?_ hn hs u⟩
  rintro rfl
  exact absurd hd (by decide)

theorem separates_semicolon : Separates ";" := divides_semicolon.separates

theorem lexes_semicolon (hn : mode.numbers = false) (hs : mode.strings = false) :
    Lexes mode [";"] (.delimiter .semicolon) ";" [""] :=
  lexes_symbol_text (d := .semicolon) (by simp) hn hs ""

theorem lexes_comma (hn : mode.numbers = false) (hs : mode.strings = false) (rest : String) :
    Lexes mode ["," ++ rest] (.delimiter .comma) "," [rest] :=
  lexes_symbol_text (d := .comma) (by simp) hn hs rest

theorem ink_text (s t : String) : ink [s ++ t] = ink [s] + ink [t] := by
  simp only [ink_cons, ink_nil, String.toList_append, List.countP_append, Nat.add_zero]

/-- Every item takes characters, at least those of its comma. -/
theorem ink_more (text : α → String) (stop : String) (a : α) (items : List α) :
    ink [text a ++ moreText text stop items] < ink [moreText text stop (a :: items)] := by
  have hcomma : ink [","] = 1 := by decide
  simp only [moreText, ink_text, hcomma]
  omega

namespace Grammar

open Reading

/-- A loop that reads an item behind every comma reads the list up to where no comma comes. -/
theorem reads_list {P : α → Prop} {round : List α → Reading (Round (List α) (List α))}
    (hagain : ∀ done a items, P a → Reads (round done) (moreText text stop (a :: items))
      (· = .again (done ++ [a])) (moreText text stop items))
    (hdone : ∀ done, Reads (round done) stop (· = .done done) rest)
    (done items : List α) (h : ∀ a ∈ items, P a) :
    Reads (repeatFrom done round) (moreText text stop items) (· = done ++ items) rest := by
  refine yields_items (fun items => [moreText text stop items]) hagain hdone
    (fun a items _ => ?_) done items h
  have hmore := ink_more text stop a items
  rw [ink_text] at hmore
  omega

/-! ## Ends of statements -/

theorem noted_reads (item : α) (start : Position) :
    Reads (do return { item, notes := ← finish start : Noted α }) ";" (Bare item) "" := by
  have hfinish : Reads (finish start) ";" (fun n => ∃ x : Extent, n = { extent := x }) "" :=
    (symbol_reads (d := .semicolon) (by simp) ";" "").bind fun _ _ =>
      reads_position_bind fun _ => reads_pure ⟨_, rfl⟩
  refine hfinish.bind ?_
  rintro _ ⟨x, rfl⟩
  exact reads_pure ⟨x, rfl⟩

/-! ## Settings -/

/-- A setting as it is written between brackets. -/
def settingText (s : Setting) : String := s.name ++ " = " ++ s.constant

theorem settingText_append (s : Setting) (rest : String) : settingText s ++ rest =
    s.name ++ (" " ++ ("=" ++ (" " ++ (s.constant ++ rest)))) := by
  simp [settingText, ← String.toList_inj]

theorem settingsLabel_nil : settingsLabel [] ++ ";" = ";" := by decide

theorem settingsLabel_cons (s : Setting) (ss : List Setting) : settingsLabel (s :: ss) ++ ";" =
    " " ++ ("[" ++ (settingText s ++ moreText settingText "];" ss)) := by
  have hopen : " [" = " " ++ "[" := by decide
  have hclose : "]" ++ ";" = "];" := by decide
  rw [← intercalate_text, ← hclose, settingsLabel, List.isEmpty_cons, if_neg Bool.false_ne_true,
    hopen, String.append_assoc, String.append_assoc, String.append_assoc]
  rfl

theorem separates_equals (rest : String) : Separates (" " ++ ("=" ++ rest)) :=
  separates_blank (separates_symbol (d := .equals) (by simp) rest).halts

theorem separates_settings (ss : List Setting) : Separates (settingsLabel ss ++ ";") := by
  cases ss with
  | nil =>
    rw [settingsLabel_nil]
    exact separates_semicolon
  | cons s ss =>
    rw [settingsLabel_cons]
    exact separates_blank (separates_symbol (d := .leftBracket) (by simp) _).halts

theorem equals_reads (rest : String) :
    Reads (expectDelimiter .equals "=") (" " ++ ("=" ++ rest)) (fun _ => True) rest :=
  (symbol_reads (d := .equals) (by simp) "=" rest).behind_blank

theorem setting_reads (opts : Options) {s : Setting} (h : s.Legible false) (hrest : Separates rest) :
    Reads (setting opts) (settingText s ++ rest) (· = s) rest := by
  have hvalue : isValue s.constant = true := by simpa using h.value
  rw [settingText_append]
  refine (optionName_reads (separates_equals _) h.name).bind ?_
  rintro _ rfl
  refine (equals_reads _).bind fun _ _ => ?_
  refine (value_reads hrest opts.permissive hvalue).behind_blank.bind ?_
  rintro ⟨_, p⟩ rfl
  exact reads_pure rfl

/-- Settings stand in brackets in front of a semicolon; without settings there are no brackets. -/
theorem settings_reads (opts : Options) {ss : List Setting} (h : ∀ s ∈ ss, s.Legible false) :
    Reads (settings opts) (settingsLabel ss ++ ";") (· = ss) ";" := by
  cases ss with
  | nil =>
    rw [settingsLabel_nil]
    refine (accept_reads_false (d := .leftBracket) (lexes_semicolon rfl rfl) (by simp)).bind ?_
    rintro _ rfl
    exact reads_pure rfl
  | cons s ss =>
    rw [List.forall_mem_cons] at h
    have hopen : Lexes .plain ["[" ++ (settingText s ++ moreText settingText "];" ss)]
        (.delimiter .leftBracket) "[" [settingText s ++ moreText settingText "];" ss] :=
      lexes_symbol_text (d := .leftBracket) (by simp) rfl rfl _
    rw [settingsLabel_cons]
    refine (accept_reads hopen).behind_blank.bind ?_
    rintro _ rfl
    refine (setting_reads opts h.1 (divides_bracket.more settingText ss).separates).bind ?_
    rintro first rfl
    refine reads_list (P := Setting.Legible false) (fun done a items ha => ?_) (fun done => ?_)
      [first] ss h.2
    · refine reads_next_bind rfl (lexes_comma rfl rfl _) fun r hr _ => ?_
      have hsetting := setting_reads opts ha (divides_bracket.more settingText items).separates
      refine (hsetting.behind_blank r hr).bind ?_
      rintro _ r' ⟨_, hr', rfl, rfl⟩
      exact sat_pure ⟨_, hr', rfl, rfl⟩
    · have hclose : Lexes .plain ["];"] (.delimiter .rightBracket) "]" [";"] :=
        lexes_symbol_text (d := .rightBracket) (by simp) rfl rfl ";"
      exact reads_next_bind rfl hclose fun r hr _ => sat_pure ⟨_, hr, rfl, rfl⟩

attribute [local simp] statementLabel

/-! ## Fields -/

theorem fieldNumber_reads (h : isIntLit w.toList = true) (hrest : Breaks rest) :
    Reads fieldNumber (w ++ rest) (· = w) rest := by
  have hl : Lexes .number [w ++ rest] .intLit w [rest] :=
    lexes_int_text rfl (isIntLit_dropSign h) hrest
  refine reads_next_bind rfl hl fun r hr htext => sat_text_bind ?_
  rw [htext, if_pos ⟨rfl, sign?_of_digit (Scan.isIntLit_digit h).2⟩]
  exact sat_pure ⟨_, hr, rfl, rfl⟩

/-- What comes behind the type of a field. -/
def numberedText (name number : String) (ss : List Setting) : String :=
  name ++ (" " ++ ("=" ++ (" " ++ (number ++ (settingsLabel ss ++ ";")))))

theorem numbered_reads (opts : Options) {name number : String} {ss : List Setting}
    (item : String → String → List Setting → α) (start : Position) (expected : String)
    (h : Numbered false name number ss) :
    Reads (do
      let name ← expectIdent expected
      expectDelimiter .equals "="
      let number ← fieldNumber
      let settings ← settings opts
      let notes ← finish start
      return { item := item name number settings, notes : Noted α })
      (numberedText name number ss) (Bare (item name number ss)) "" := by
  refine (ident_reads h.name (breaks_blank _) expected).bind ?_
  rintro _ rfl
  refine (equals_reads _).bind fun _ _ => ?_
  refine (fieldNumber_reads h.number (separates_settings ss).breaks).behind_blank.bind ?_
  rintro _ rfl
  refine (settings_reads opts h.settings).bind ?_
  rintro _ rfl
  exact noted_reads _ start

/-- The type of a field ends in front of its name. -/
theorem separates_numbered {name number : String} {ss : List Setting}
    (h : Numbered false name number ss) : Separates (" " ++ numberedText name number ss) :=
  separates_blank (halts_word_text h.name (breaks_blank _))

/-- A type with an optional keyword in front is read by what comes behind the keyword. -/
theorem optionalType_reads {k : Keyword} {f : Option Position → Reading α} {Q : α → Prop}
    {hasKeyword : Bool} {u : String} (h : isMessageType (nameTokens w) = true)
    (hk : hasKeyword = false → startsWith [k.word] (nameTokens w) = false) (hrest : Breaks rest)
    (hf : ∀ first : Option Position, first.isSome = hasKeyword → Reads (f first) (w ++ rest) Q u) :
    Reads (optionally k f) ((if hasKeyword then k.word ++ " " else "") ++ (w ++ rest)) Q u := by
  cases hasKeyword with
  | true =>
    rw [if_pos rfl, String.append_assoc]
    exact optionally_reads (lexes_keyword_text k (breaks_blank _)) fun p => (hf (some p) rfl).behind_blank
  | false =>
    obtain ⟨kind, v, vs, hl, hne⟩ := lexes_type_ne false h (hk rfl) [rest] hrest.ident_head []
    rw [glue_text, join_nameTokens] at hl
    rw [if_neg Bool.false_ne_true, String.empty_append]
    exact optionally_reads_none hl hne (hf none rfl)

theorem field_reads (opts : Options) {f : Field} (h : f.Legible false) :
    Reads (field opts) (statementLabel (.field f) ++ ";") (Bare f) "" := by
  have htext : statementLabel (.field f) ++ ";" = (if f.isRepeated then "repeated" ++ " " else "") ++
      (f.type ++ (" " ++ numberedText f.name f.number f.settings)) := by
    by_cases hr : f.isRepeated = true <;>
      simp [numberedText, hr, ← String.toList_inj]
  obtain ⟨type, name, number, isRepeated, ss⟩ := f
  have hend := separates_numbered h.numbered
  rw [htext, field_eq]
  refine optionalType_reads (k := .kwRepeated) (isFieldType_messageType h.type) h.first hend.breaks ?_
  rintro first rfl
  refine (fieldType_reads hend h.type).bind ?_
  rintro ⟨type, start⟩ rfl
  exact (numbered_reads opts (fun name number settings =>
    { type, name, number, isRepeated := first.isSome, settings : Field }) _ "fieldName"
      h.numbered).behind_blank

theorem keyType_reads (h : w ∈ keyTypes) (hrest : Breaks rest) :
    Reads keyType (w ++ rest) (· = w) rest := by
  have hident : isIdent w.toList = true := by
    have hall : ∀ w ∈ keyTypes, isIdent w.toList = true := by decide +kernel
    exact hall w h
  have hl : Lexes .plain [w ++ rest] .ident w [rest] := lexes_word_text .plain hident hrest
  refine reads_next_bind rfl hl fun r hr htext => sat_text_bind ?_
  rw [htext, if_pos ⟨rfl, h⟩]
  exact sat_pure ⟨_, hr, rfl, rfl⟩

theorem mapField_reads (opts : Options) {f : MapField} (h : f.Legible false) :
    Reads (mapField opts) (statementLabel (.mapField f) ++ ";") (Bare f) "" := by
  have htext : statementLabel (.mapField f) ++ ";" = "map" ++ ("<" ++ (f.keyType ++ ("," ++ (" " ++
      (f.type ++ (">" ++ (" " ++ numberedText f.name f.number f.settings))))))) := by
    simp [numberedText, ← String.toList_inj]
  obtain ⟨key, type, name, number, ss⟩ := f
  rw [htext]
  refine (keyword_reads .kwMap (breaks_symbol (d := .leftAngle) (by simp) _)).bind fun start _ => ?_
  refine (symbol_reads (d := .leftAngle) (by simp) _ _).bind fun _ _ => ?_
  refine (keyType_reads h.keyType (breaks_symbol (d := .comma) (by simp) _)).bind ?_
  rintro key rfl
  refine (symbol_reads (d := .comma) (by simp) _ _).bind fun _ _ => ?_
  refine (fieldType_reads (separates_symbol (d := .rightAngle) (by simp) _)
    h.type).behind_blank.bind ?_
  rintro ⟨type, _⟩ rfl
  refine (symbol_reads (d := .rightAngle) (by simp) _ _).bind fun _ _ => ?_
  exact (numbered_reads opts (fun name number settings =>
    { keyType := key, type, name, number, settings : MapField }) start "mapName"
      h.numbered).behind_blank

theorem enumField_reads (opts : Options) {f : EnumField} (h : f.Legible false) :
    Reads (enumField opts) (statementLabel (.enumField f) ++ ";") (Bare f) "" := by
  have htext : statementLabel (.enumField f) ++ ";" = numberedText f.name f.number f.settings := by
    simp [numberedText, ← String.toList_inj]
  obtain ⟨name, number, ss⟩ := f
  obtain ⟨hint, hsign⟩ := isEnumNumber_cases h.number
  rw [htext]
  refine (ident_reads h.name (breaks_blank _) _).bind ?_
  rintro name rfl
  refine reads_position_bind fun start => (equals_reads _).bind fun _ _ => ?_
  have hl : Lexes .number [" " ++ (number ++ (settingsLabel ss ++ ";"))] .intLit number
      [settingsLabel ss ++ ";"] := (lexes_int_text rfl hint (separates_settings ss).breaks).behind_blank
  refine reads_next_bind rfl hl fun r hr htext => sat_text_bind ?_
  rw [htext, if_neg (by simp [hsign])]
  refine (settings_reads opts h.settings r hr).bind ?_
  rintro _ r' ⟨_, hr', rfl, rfl⟩
  exact noted_reads _ start r' hr'

/-! ## Statements of a file -/

theorem importBehind_reads {location : String} (visibility : Visibility) (start : Position)
    {r : Reader} (hr : r.At [";"]) (htext : r.token.text = location) :
    Sat (importBehind visibility start .stringLit) r
      (fun n r' => ∃ ws', r'.At ws' ∧ Bare { location, visibility } n ∧ ws' = [""])
      fun _ => False := by
  unfold importBehind
  rw [if_neg (by simp)]
  refine sat_text_bind ?_
  rw [htext]
  exact noted_reads _ start r hr

/-- The location is a string behind at most one keyword. -/
theorem importing_reads {i : Import} (h : isStrLit i.location.toList = true) :
    Reads importing (statementLabel (.importing i) ++ ";") (Bare i) "" := by
  obtain ⟨location, visibility⟩ := i
  have hlocation (mode : Mode) (hs : mode.strings = true) :
      Lexes mode [" " ++ (location ++ ";")] .stringLit location [";"] :=
    (lexes_string_text hs h separates_semicolon).behind_blank
  -- a keyword in front leaves the location to be read
  have hbehind (k : Keyword) (hkind : wordKind (.union .keyword .string) k.word = .keyword k)
      (hv : visibilityOf (.keyword k) ≠ .plain) : Reads importing
      ("import" ++ (" " ++ (k.word ++ (" " ++ (location ++ ";")))))
      (Bare { location, visibility := visibilityOf (.keyword k) }) "" := by
    have hl := lexes_word_text (.union .keyword .string) (isIdent_keyword k)
      (breaks_blank (location ++ ";"))
    rw [hkind] at hl
    rw [importing_eq]
    refine (keyword_reads .kwImport (breaks_blank _)).bind fun start _ => ?_
    refine reads_next_bind rfl hl.behind_blank fun r hr _ => ?_
    rw [if_neg hv]
    exact reads_next_bind rfl (hlocation .string rfl)
      (fun r' hr' htext => importBehind_reads _ start hr' htext) _ hr
  cases visibility with
  | plain =>
    have htext : statementLabel (.importing ⟨location, .plain⟩) ++ ";" =
        "import" ++ (" " ++ (location ++ ";")) := by
      simp [← String.toList_inj]
    rw [htext, importing_eq]
    refine (keyword_reads .kwImport (breaks_blank _)).bind fun start _ => ?_
    exact reads_next_bind rfl (hlocation (.union .keyword .string) rfl)
      fun r hr htext => importBehind_reads .plain start hr htext
  | toImporters =>
    have htext : statementLabel (.importing ⟨location, .toImporters⟩) ++ ";" =
        "import" ++ (" " ++ ("public" ++ (" " ++ (location ++ ";")))) := by
      simp [Visibility.word, ← String.toList_inj]
    rw [htext]
    exact hbehind .kwPublic (by decide) (by decide)
  | weak =>
    have htext : statementLabel (.importing ⟨location, .weak⟩) ++ ";" =
        "import" ++ (" " ++ ("weak" ++ (" " ++ (location ++ ";")))) := by
      simp [Visibility.word, ← String.toList_inj]
    rw [htext]
    exact hbehind .kwWeak (by decide) (by decide)

theorem package_reads {p : Package} (h : isFullIdent (nameTokens p.name) = true) :
    Reads package (statementLabel (.package p) ++ ";") (Bare p) "" := by
  have htext : statementLabel (.package p) ++ ";" = "package" ++ (" " ++ (p.name ++ ";")) := by
    simp [← String.toList_inj]
  rw [htext]
  refine (keyword_reads .kwPackage (breaks_blank _)).bind fun start _ => ?_
  refine (fullIdent_reads separates_semicolon h).behind_blank.bind ?_
  rintro ⟨name, _⟩ rfl
  exact noted_reads _ start

theorem option_reads (opts : Options) {o : OptionSetting} (h : o.Legible false) :
    Reads (option opts) (statementLabel (.option o) ++ ";") (Bare o) "" := by
  obtain ⟨name, constant, endpoint⟩ := o
  obtain ⟨rfl, hvalue⟩ : endpoint = none ∧ isValue constant = true := by simpa using h.value
  have htext : statementLabel (.option { name, constant }) ++ ";" =
      "option" ++ (" " ++ (name ++ (" " ++ ("=" ++ (" " ++ (constant ++ ";")))))) := by
    simp [← String.toList_inj]
  rw [htext]
  refine (keyword_reads .kwOption (breaks_blank _)).bind fun start _ => ?_
  refine (optionName_reads (separates_equals _) h.name).behind_blank.bind ?_
  rintro name rfl
  refine (equals_reads _).bind fun _ _ => ?_
  refine (value_reads separates_semicolon opts.permissive hvalue).behind_blank.bind ?_
  rintro ⟨_, _⟩ rfl
  exact noted_reads _ start

/-! ## What is reserved -/

theorem range_append {r : NumberRange} (h : r.last ≠ "") (rest : String) :
    r.render ++ rest = r.first ++ (" " ++ ("to" ++ (" " ++ (r.last ++ rest)))) := by
  simp [NumberRange.render, h, ← String.toList_inj]

/-- The first number of a range ends in front of what stands behind it. -/
theorem range_breaks (r : NumberRange) (hrest : Divides rest) : ∃ t, Breaks t ∧
    r.render ++ rest = r.first ++ t := by
  by_cases h : r.last = ""
  · exact ⟨rest, hrest.separates.breaks, by rw [NumberRange.render, if_pos h]⟩
  · exact ⟨_, breaks_blank _, range_append h rest⟩

theorem range_reads {r : NumberRange} (h : r.Spelled) (hrest : Divides rest) :
    Reads range (r.render ++ rest) (· = r) rest := by
  obtain ⟨first, last⟩ := r
  have hbreaks := hrest.separates.breaks
  by_cases hnone : last = ""
  · subst hnone
    obtain ⟨d, v, vs, hl⟩ := hrest.lexes .keyword rfl rfl
    rw [NumberRange.render, if_pos rfl]
    refine (expect_reads rfl (lexes_int_text rfl h.first hbreaks) _).bind ?_
    rintro _ rfl
    refine yields_next_bind rfl hl fun r hr _ _ => ?_
    rw [if_neg (by simp)]
    exact (hr.putBack rfl hl.bare).bind fun _ r' hr' => sat_pure ⟨_, hr', rfl, rfl⟩
  · rw [range_append hnone]
    refine (expect_reads rfl (lexes_int_text rfl h.first (breaks_blank _)) _).bind ?_
    rintro _ rfl
    refine reads_next_bind rfl (lexes_keyword_text .kwTo (breaks_blank _)).behind_blank
      fun r hr _ => ?_
    rw [if_pos rfl]
    rcases h.last.resolve_left hnone with rfl | hlast
    · have hmax := lexes_word_text (.union .keyword .number) (isIdent_keyword .kwMax) hbreaks
      have hkind : wordKind (.union .keyword .number) Keyword.kwMax.word = .keyword .kwMax := by
        decide
      rw [hkind] at hmax
      refine reads_next_bind rfl hmax.behind_blank (fun r' hr' htext => sat_text_bind ?_) _ hr
      exact sat_pure ⟨_, hr', by rw [htext]; rfl, rfl⟩
    · have hint : Lexes (.union .keyword .number) [last ++ rest] .intLit last [rest] :=
        lexes_int_text rfl hlast hbreaks
      refine reads_next_bind rfl hint.behind_blank (fun r' hr' htext => sat_text_bind ?_) _ hr
      exact sat_pure ⟨_, hr', by rw [htext], rfl⟩

theorem ranges_reads {a : NumberRange} {rs : List NumberRange} (h : ∀ r ∈ a :: rs, r.Spelled) :
    Reads ranges (a.render ++ moreText NumberRange.render ";" rs) (· = a :: rs) ";" := by
  rw [List.forall_mem_cons] at h
  refine (range_reads h.1 (divides_semicolon.more _ rs)).bind ?_
  rintro first rfl
  refine reads_list (P := NumberRange.Spelled) (fun done a items ha => ?_) (fun done => ?_)
    [first] rs h.2
  · refine (accept_reads (lexes_comma rfl rfl _)).bind ?_
    rintro _ rfl
    refine (range_reads ha (divides_semicolon.more _ items)).behind_blank.bind ?_
    rintro _ rfl
    exact reads_pure rfl
  · refine (accept_reads_false (d := .comma) (lexes_semicolon rfl rfl) (by simp)).bind ?_
    rintro _ rfl
    exact reads_pure rfl

/-- A comma is read with the name in front of it. -/
theorem reservedNames_reads {name : String} {names : List String}
    (h : ∀ w ∈ name :: names, isStrLit w.toList = true) :
    Reads reservedNames (" " ++ (name ++ moreText id ";" names)) (· = name :: names) ";" := by
  refine yields_repeatFrom (I := fun done ws' => ∃ name' names',
    ws' = [" " ++ (name' ++ moreText id ";" names')] ∧
      (∀ w ∈ name' :: names', isStrLit w.toList = true) ∧ done ++ name' :: names' = name :: names)
    ⟨name, names, rfl, h, rfl⟩ ?_
  rintro done _ ⟨name', names', rfl, hall, hnames⟩
  rw [List.forall_mem_cons] at hall
  have hl : Lexes .string [" " ++ (name' ++ moreText id ";" names')] .stringLit name'
      [moreText id ";" names'] :=
    (lexes_string_text rfl hall.1 (divides_semicolon.more id names').separates).behind_blank
  refine Yields.bind (expect_reads rfl hl _) ?_
  rintro _ _ ⟨rfl, rfl⟩
  cases names' with
  | nil =>
    refine Yields.bind (accept_reads_false (d := .comma) (lexes_semicolon rfl rfl) (by simp)) ?_
    rintro _ _ ⟨rfl, rfl⟩
    exact yields_pure ⟨hnames, rfl⟩
  | cons name'' names'' =>
    refine Yields.bind (accept_reads (lexes_comma rfl rfl _)) ?_
    rintro _ _ ⟨rfl, rfl⟩
    refine yields_pure ⟨⟨name'', names'', rfl, hall.2, ?_⟩, ?_⟩
    · rw [← hnames, List.append_assoc, List.singleton_append]
    · have hmore := ink_more id ";" name'' names''
      simp only [ink_text, id] at hmore ⊢
      omega

/-- Where no numbers are wanted, a sign is a token by itself. -/
theorem lexes_sign_text {x : Char} {n : List Char} (hw : w.toList = x :: n) (hx : isSign x = true)
    (rest : String) : ∃ d vs, Lexes .string [w ++ rest] (.delimiter d) (String.ofList [x]) vs := by
  obtain ⟨d, hchar, hd⟩ : ∃ d, Delimiter.ofChar? x = some d ∧ d ≠ .slash := by
    rcases Scan.isSign_cases hx with rfl | rfl
    · exact ⟨.plus, rfl, by simp⟩
    · exact ⟨.minus, rfl, by simp⟩
  have hquote : Scan.isQuote x = false := by
    rcases Scan.isSign_cases hx with rfl | rfl <;> rfl
  have hsplit : w ++ rest = String.ofList [x] ++ (String.ofList n ++ rest) := by
    rw [← String.append_assoc, ← String.ofList_append, List.singleton_append, ← hw,
      String.ofList_toList]
  have hspells : d.Spells (String.ofList [x]) := ⟨x, String.toList_ofList, hchar, hd⟩
  rw [hsplit]
  refine ⟨d, _, Lexes.text (lexes_glue false hspells.shows fun tail _ => ?_)⟩
  rw [String.toList_ofList]
  exact Scan.takes_delimiter hchar (by rw [hquote, Bool.false_and]) (Bool.false_and _)

/-- No string is seen in front of a number. -/
theorem lexes_int_other (h : isSignedInt w = true) (hrest : Breaks rest) :
    ∃ kind v vs, Lexes .string [w ++ rest] kind v vs ∧ kind ≠ .stringLit := by
  unfold isSignedInt at h
  cases hw : w.toList with
  | nil =>
    rw [hw] at h
    cases h
  | cons x n =>
    by_cases hx : isSign x = true
    · obtain ⟨d, vs, hl⟩ := lexes_sign_text hw hx rest
      exact ⟨_, _, vs, hl, by simp⟩
    · rw [hw, dropSign, if_neg hx, ← hw] at h
      have hl : Lexes .string [w ++ rest] .intLit w [rest] :=
        Lexes.text (lexes_glue false (shows_int h) fun tail ht => Scan.takes_int .string h
          fun y hy => (ht y hy).elim (Scan.solid_isNumberTail y) (hrest.join_head y))
      exact ⟨_, _, _, hl, by simp⟩

/-- The first word tells whether names or ranges are reserved. -/
theorem reserved_reads {r : Reserved} (h : r.Legible) :
    Reads reserved (statementLabel (.reserved r) ++ ";") (Bare r) "" := by
  obtain ⟨ranges, names⟩ := r
  rcases h.one with ⟨hne, hempty⟩ | ⟨hempty, hne⟩
  · obtain ⟨a, rs, rfl⟩ := List.exists_cons_of_ne_nil hne
    subst hempty
    have htext : statementLabel (.reserved { ranges := a :: rs }) ++ ";" =
        "reserved" ++ (" " ++ (a.render ++ moreText NumberRange.render ";" rs)) := by
      rw [← intercalate_text]
      simp [← String.toList_inj]
    obtain ⟨t, ht, hfirst⟩ := range_breaks a (divides_semicolon.more NumberRange.render rs)
    obtain ⟨kind, v, vs, hl, hk⟩ := lexes_int_other (h.ranges a List.mem_cons_self).first ht
    rw [← hfirst] at hl
    rw [htext]
    refine (keyword_reads .kwReserved (breaks_blank _)).bind fun start _ => ?_
    refine (peek_reads rfl hl.behind_blank).bind ?_
    rintro _ rfl
    dsimp only
    rw [if_neg hk]
    refine (ranges_reads h.ranges).behind_blank.bind ?_
    rintro _ rfl
    exact noted_reads _ start
  · obtain ⟨name, names, rfl⟩ := List.exists_cons_of_ne_nil hne
    subst hempty
    have htext : statementLabel (.reserved { names := name :: names }) ++ ";" =
        "reserved" ++ (" " ++ (name ++ moreText id ";" names)) := by
      have hlist := intercalate_text id ";" name names
      rw [List.map_id, id] at hlist
      rw [← hlist]
      simp [← String.toList_inj]
    have hname : Lexes .string [" " ++ (name ++ moreText id ";" names)] .stringLit name
        [moreText id ";" names] :=
      (lexes_string_text rfl (h.names name List.mem_cons_self)
        (divides_semicolon.more id names).separates).behind_blank
    rw [htext]
    refine (keyword_reads .kwReserved (breaks_blank _)).bind fun start _ => ?_
    refine (peek_reads rfl hname).bind ?_
    rintro _ rfl
    dsimp only
    rw [if_pos rfl]
    refine (reservedNames_reads h.names).bind ?_
    rintro _ rfl
    exact noted_reads _ start

/-! ## Heads of rpcs -/

theorem rpcTypeLabel_append (t : RpcType) (rest : String) : rpcTypeLabel t ++ rest =
    "(" ++ ((if t.isStream then "stream" ++ " " else "") ++ (t.messageType ++ (")" ++ rest))) := by
  by_cases hs : t.isStream = true <;> simp [rpcTypeLabel, hs, ← String.toList_inj]

theorem breaks_rpcType (t : RpcType) (rest : String) : Breaks (rpcTypeLabel t ++ rest) := by
  rw [rpcTypeLabel_append]
  exact breaks_symbol (d := .leftParen) (by simp) _

theorem rpcType_reads {t : RpcType} (h : t.isWellFormed = true) (rest : String) :
    Reads rpcType (rpcTypeLabel t ++ rest) (fun a => ∃ x : Extent, a = { t with extent := x })
      rest := by
  rw [rpcTypeLabel_append, rpcType_eq]
  obtain ⟨type, isStream, extent⟩ := t
  rw [RpcType.isWellFormed, Bool.and_eq_true] at h
  obtain ⟨htype, hstream⟩ := h
  have hfirst (hs : isStream = false) : startsWith ["stream"] (nameTokens type) = false := by
    simpa [hs] using hstream
  have hclose := separates_symbol (d := .rightParen) (by simp) rest
  refine (symbol_reads (d := .leftParen) (by simp) _ _).bind fun _ _ => ?_
  refine optionalType_reads (k := .kwStream) htype hfirst hclose.breaks ?_
  rintro first rfl
  refine (messageType_reads hclose htype).bind ?_
  rintro ⟨type, start⟩ rfl
  refine reads_position_bind fun last => ?_
  refine (symbol_reads (d := .rightParen) (by simp) _ rest).bind fun _ _ => ?_
  exact reads_pure ⟨_, rfl⟩

/-- An rpc that ends with a semicolon is read back, its types at other places. -/
theorem rpc_reads (body : Scope → Reading Body) {r : Rpc} (h : (Head.rpc r).isWellFormed = true) :
    Reads (rpc body) (headLabel (.rpc r) ++ ";") (fun e => ∃ (b : Rpc) (x : Extent),
      e = .block (.rpc b) [] none { extent := x } ∧ (Head.rpc b).erase = (Head.rpc r).erase) "" := by
  have htext : headLabel (.rpc r) ++ ";" = "rpc" ++ (" " ++ (r.name ++ (rpcTypeLabel r.request ++
      (" " ++ ("returns" ++ (" " ++ (rpcTypeLabel r.response ++ ";"))))))) := by
    simp [headLabel, ← String.toList_inj]
  obtain ⟨name, request, response⟩ := r
  simp only [Head.isWellFormed, Bool.and_eq_true] at h
  obtain ⟨⟨hname, hrequest⟩, hresponse⟩ := h
  rw [htext]
  refine (keyword_reads .kwRpc (breaks_blank _)).bind fun start _ => ?_
  refine (ident_reads hname (breaks_rpcType _ _) _).behind_blank.bind ?_
  rintro name rfl
  refine (rpcType_reads hrequest _).bind ?_
  rintro _ ⟨x, rfl⟩
  refine (keyword_reads .kwReturns (breaks_blank _)).behind_blank.bind fun _ _ => ?_
  refine (rpcType_reads hresponse _).behind_blank.bind ?_
  rintro _ ⟨y, rfl⟩
  refine reads_next_bind rfl (lexes_semicolon rfl rfl) fun r hr _ => ?_
  exact sat_position_bind (sat_pure ⟨_, hr, ⟨_, _, rfl, rfl⟩, rfl⟩)

/-! ## Statements -/

/-- Every statement but a version is read back. -/
theorem statement_reads (opts : Options) (body : Scope → Reading Body) {s : Statement}
    (h : s.Legible false) (hv : ∀ v, s ≠ .version v) :
    Reads (declaration opts body s.production) (statementLabel s ++ ";")
      (fun e => ∃ x : Extent, e = .statement s { extent := x }) "" := by
  have hwrap {α : Type} {x : Reading (Noted α)} {a : α} {label : String} (wrap : α → Statement)
      (hx : Reads x label (Bare a) "") : Reads (do return statement wrap (← x)) label
        (fun e => ∃ x : Extent, e = .statement (wrap a) { extent := x }) "" := by
    refine hx.bind ?_
    rintro _ ⟨y, rfl⟩
    exact reads_pure ⟨y, rfl⟩
  cases s with
  | version v => exact absurd rfl (hv v)
  | importing i => exact hwrap .importing (importing_reads h)
  | package p => exact hwrap .package (package_reads h)
  | option o => exact hwrap .option (option_reads opts h)
  | field f => exact hwrap .field (field_reads opts h)
  | mapField f => exact hwrap .mapField (mapField_reads opts h)
  | enumField f => exact hwrap .enumField (enumField_reads opts h)
  | reserved r => exact hwrap .reserved (reserved_reads h)

end Grammar

end ProtoIdl
