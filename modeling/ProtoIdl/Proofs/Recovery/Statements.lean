import ProtoIdl.Grammar.Body
import ProtoIdl.Proofs.Recovery.Values
/-!
# Statements are read back

Every statement is read from its words and the semicolon behind them. Its place depends on the text,
so it is left open (`Bare`).
-/
namespace ProtoIdl

open Spelling
open Scan (wordKind)

variable {ws : List String}

/-- The declaration carries no comments. -/
def Bare {α : Type} (a : α) (n : Noted α) : Prop := ∃ x : Extent, n = ⟨a, { extent := x }⟩

namespace Grammar

open Reading

variable (σ : Style)

theorem finish_yields (start : Position) (ws : List String) : Yields (finish start) (";" :: ws)
    fun n ws' => (∃ x : Extent, n = { extent := x }) ∧ ws' = ws := by
  refine (symbol_yields (d := .semicolon) nofun _ ws).bind ?_
  rintro _ _ rfl
  exact yields_position_bind fun p => yields_pure ⟨⟨_, rfl⟩, rfl⟩

theorem noted_yields {α : Type} (item : α) (start : Position) (ws : List String) :
    Yields (do return { item, notes := ← finish start : Noted α }) (";" :: ws) fun n ws' =>
      Bare item n ∧ ws' = ws := by
  refine (finish_yields start ws).bind ?_
  rintro _ _ ⟨⟨x, rfl⟩, rfl⟩
  exact yields_pure ⟨⟨x, rfl⟩, rfl⟩

/-! ## Statements of a file -/

theorem quoted_append (text : String) (ws : List String) :
    σ.quoted text ++ ws = glue σ.loose [σ.quote, text, σ.quote] ws := by
  unfold Style.quoted glue
  split
  · rfl
  · simp [String.join_cons, String.append_assoc]

theorem spells_quote : Delimiter.quote.Spells σ.quote := by
  unfold Style.quote
  split
  · exact ⟨'"', rfl, rfl, nofun⟩
  · exact ⟨'\'', rfl, rfl, nofun⟩

/-- A word goes up to the quote behind it. -/
theorem quote_head (ts : List String) :
    ∀ x ∈ (String.join (σ.quote :: ts)).toList.head?, Text.isIdentChar x = false := by
  intro x hx
  rw [String.join_cons, String.toList_append] at hx
  unfold Style.quote at hx
  split at hx
  · obtain rfl : '"' = x := by simpa using hx
    decide
  · obtain rfl : '\'' = x := by simpa using hx
    decide

theorem version_yields (ws : List String) :
    Yields version (Statement.words σ (.version { text := "proto3" }) ++ ";" :: ws) fun n ws' =>
      Bare { text := "proto3" } n ∧ ws' = ws := by
  have hwords : Statement.words σ (.version { text := "proto3" }) ++ ";" :: ws =
      "syntax" :: "=" :: glue σ.loose [σ.quote, "proto3", σ.quote] (";" :: ws) := by
    rw [← quoted_append]
    rfl
  rw [hwords]
  have hopen : Lexes .plain (glue σ.loose [σ.quote, "proto3", σ.quote] (";" :: ws))
      (.delimiter .quote) σ.quote (glue σ.loose ["proto3", σ.quote] (";" :: ws)) :=
    lexes_delimiter σ.loose (spells_quote σ) rfl rfl _ _
  have hword : Lexes .plain (glue σ.loose ["proto3", σ.quote] (";" :: ws)) .ident "proto3"
      (glue σ.loose [σ.quote] (";" :: ws)) :=
    lexes_ident .plain σ.loose (by decide +kernel) (quote_head σ []) _
  have hclose : Lexes .plain (glue σ.loose [σ.quote] (";" :: ws)) (.delimiter .quote) σ.quote
      (glue σ.loose [] (";" :: ws)) :=
    lexes_delimiter σ.loose (spells_quote σ) rfl rfl [] _
  refine (keyword_yields .kwSyntax _).bind ?_
  rintro start _ rfl
  refine (symbol_yields (d := .equals) nofun _ _).bind ?_
  rintro _ _ rfl
  refine (expect_yields rfl hopen _).bind ?_
  rintro _ _ ⟨rfl, rfl⟩
  refine yields_next_bind rfl hword fun r _ hr htext => sat_text_bind ?_
  rw [htext, if_neg (fun h => h rfl)]
  refine yields_next_bind rfl hclose (fun r' _ hr' htext' => sat_text_bind ?_) _ hr
  rw [htext', if_neg (by simp)]
  exact noted_yields _ start ws _ (hr'.of_front (front_glue_nil _ _))

theorem importBehind_yields {location : String} (visibility : Visibility) (start : Position)
    (ws : List String) {r : Reader} (hr : r.At (";" :: ws)) (htext : r.token.text = location) :
    Sat (importBehind visibility start .stringLit) r
      (fun n r' => ∃ ws', r'.At ws' ∧ Bare { location, visibility } n ∧ ws' = ws)
      fun _ => False := by
  unfold importBehind
  rw [if_neg (by simp)]
  refine sat_text_bind ?_
  rw [htext]
  exact noted_yields _ start ws r hr

/-- The location is a string behind at most one keyword. -/
theorem importing_yields {i : Import} (h : isStrLit i.location.toList = true) (ws : List String) :
    Yields importing (Statement.words σ (.importing i) ++ ";" :: ws) fun n ws' =>
      Bare i n ∧ ws' = ws := by
  obtain ⟨location, visibility⟩ := i
  have hhead := (Punctuated.semicolon ws).head
  have hmode : (Mode.union .keyword .string).comments = false := rfl
  -- a keyword in front leaves the location to be read
  have hbehind (k : Keyword) (hkind : wordKind (.union .keyword .string) k.word = .keyword k)
      (hv : visibilityOf (.keyword k) ≠ .plain) (start : Position) : Yields
      (next (.union .keyword .string) >>= fun kind =>
        if visibilityOf kind = .plain then importBehind .plain start kind
        else next .string >>= importBehind (visibilityOf kind) start)
      (k.word :: location :: ";" :: ws) fun n ws' =>
        Bare { location, visibility := visibilityOf (.keyword k) } n ∧ ws' = ws := by
    have hl := lexes_identifier (.union .keyword .string) (isIdent_keyword k) (location :: ";" :: ws)
    rw [hkind] at hl
    refine yields_next_bind hmode hl fun r _ hr _ => ?_
    rw [if_neg hv]
    refine yields_next_bind rfl (lexes_string .string rfl h hhead) (fun r' _ hr' htext => ?_) _ hr
    exact importBehind_yields _ start ws hr' htext
  rw [importing_eq]
  refine (keyword_yields .kwImport _).bind ?_
  rintro start _ rfl
  cases visibility with
  | plain =>
    have hl := lexes_string (.union .keyword .string) rfl h hhead
    refine yields_next_bind hmode hl fun r _ hr htext => ?_
    have hplain : visibilityOf .stringLit = .plain := rfl
    rw [if_pos hplain]
    exact importBehind_yields .plain start ws hr htext
  | toImporters => exact hbehind .kwPublic (by decide) (by decide) start
  | weak => exact hbehind .kwWeak (by decide) (by decide) start

theorem package_yields {p : Package} (h : isFullIdent (nameTokens p.name) = true)
    (ws : List String) : Yields package (Statement.words σ (.package p) ++ ";" :: ws) fun n ws' =>
      Bare p n ∧ ws' = ws := by
  have hwords : Statement.words σ (.package p) ++ ";" :: ws =
      "package" :: glue σ.loose (nameTokens p.name) (";" :: ws) := by
    rw [← σ.name_append]
    rfl
  rw [hwords]
  refine (keyword_yields .kwPackage _).bind ?_
  rintro start _ rfl
  refine (fullIdent_yields h (next_symbol (d := .semicolon) nofun ws) nofun).bind ?_
  rintro ⟨name, _⟩ _ ⟨rfl, rfl⟩
  rw [join_nameTokens]
  exact noted_yields _ start ws

theorem option_yields (opts : Options) {o : OptionSetting}
    (h : (Statement.option o).isWellFormed = true) (ws : List String) :
    Yields (option opts) (Statement.words σ (.option o) ++ ";" :: ws) fun n ws' =>
      Bare o n ∧ ws' = ws := by
  obtain ⟨name, constant, endpoint⟩ := o
  simp only [Statement.isWellFormed, Bool.and_eq_true, Option.isNone_iff_eq_none] at h
  obtain ⟨⟨hname, hconstant⟩, rfl⟩ := h
  have hwords : Statement.words σ (.option { name, constant }) ++ ";" :: ws = "option" ::
      glue σ.loose (nameTokens name) ("=" :: (σ.constant constant ++ ";" :: ws)) := by
    rw [← σ.name_append, Statement.words]
    simp
  rw [hwords]
  refine (keyword_yields .kwOption _).bind ?_
  rintro start _ rfl
  refine (optionName_yields hname (next_symbol (d := .equals) nofun _) nofun).bind ?_
  rintro _ _ ⟨rfl, rfl⟩
  refine (symbol_yields (d := .equals) nofun _ _).bind ?_
  rintro _ _ rfl
  refine (constant_yields σ _ hconstant (Punctuated.semicolon ws).halts).bind ?_
  rintro ⟨_, _⟩ _ ⟨rfl, rfl⟩
  rw [join_nameTokens]
  exact noted_yields _ start ws

/-! ## Statements of other bodies -/

/-- What comes behind the type of a field, up to the semicolon. -/
theorem numbered_yields (opts : Options) {name number : String} {ss : List Setting}
    {α : Type} (item : String → String → List Setting → α) (start : Position) (expected : String)
    (h : isNumbered name number ss = true) (ws : List String) :
    Yields (do
      let name ← expectIdent expected
      expectDelimiter .equals "="
      let number ← fieldNumber
      let settings ← settings opts
      let notes ← finish start
      return { item := item name number settings, notes : Noted α })
      (name :: "=" :: number :: (settingsWords σ ss ++ ";" :: ws)) fun n ws' =>
        Bare (item name number ss) n ∧ ws' = ws := by
  simp only [isNumbered, Bool.and_eq_true] at h
  obtain ⟨⟨hname, hnumber⟩, hss⟩ := h
  refine (ident_yields hname _ _).bind ?_
  rintro _ _ ⟨rfl, rfl⟩
  refine (symbol_yields (d := .equals) nofun _ _).bind ?_
  rintro _ _ rfl
  refine (fieldNumber_yields hnumber _).bind ?_
  rintro _ _ ⟨rfl, rfl⟩
  refine (settings_yields σ opts hss ws).bind ?_
  rintro _ _ ⟨rfl, rfl⟩
  exact noted_yields _ start ws

theorem isNumbered_ident {name number : String} {ss : List Setting}
    (h : isNumbered name number ss = true) : isIdent name.toList = true := by
  simp only [isNumbered, Bool.and_eq_true] at h
  exact h.1.1

/-- Where words may be keywords, a type starts with a dot, or with a word that is an identifier or
spells a keyword. -/
theorem lexes_type (loose : Bool) {ts : List String} (h : isMessageType ts = true)
    (us : List String) (hus : ∀ x ∈ (String.join us).toList.head?, Text.isIdentChar x = false)
    (ws : List String) :
    ∃ kind w rest, Lexes .keyword (glue loose (ts ++ us) ws) kind w rest ∧
      (kind = .delimiter .dot ∨ kind = .ident ∨
        ∃ k : Keyword, kind = .keyword k ∧ ts.head? = some k.word) := by
  rcases isMessageType_cases h with ⟨rest, rfl, -⟩ | h
  · exact ⟨_, _, _, lexes_delimiter loose (Delimiter.spells_symbol (d := .dot) nofun) rfl rfl _ ws,
      .inl rfl⟩
  · obtain ⟨first, rest, rfl, hfirst, hrest⟩ := isFullIdent_cases h
    refine ⟨_, _, _, lexes_ident .keyword loose hfirst (isDots_head us hrest hus) ws, .inr ?_⟩
    rcases wordKind_keyword_cases first with hk | ⟨k, hk, rfl⟩
    · exact .inl hk
    · exact .inr ⟨k, hk, rfl⟩

/-- A type that does not start with a keyword is not read as the keyword. -/
theorem lexes_type_ne (loose : Bool) {ts : List String} {k : Keyword}
    (h : isMessageType ts = true) (hk : startsWith [k.word] ts = false) (us : List String)
    (hus : ∀ x ∈ (String.join us).toList.head?, Text.isIdentChar x = false) (ws : List String) :
    ∃ kind w rest, Lexes .keyword (glue loose (ts ++ us) ws) kind w rest ∧ kind ≠ .keyword k := by
  obtain ⟨kind, w, rest, hl, hkind⟩ := lexes_type loose h us hus ws
  refine ⟨kind, w, rest, hl, ?_⟩
  rintro rfl
  rcases hkind with h | h | ⟨k', h, hhead⟩
  · cases h
  · cases h
  · obtain rfl := Kind.keyword.inj h
    rw [(startsWith_iff hhead).2 List.mem_cons_self] at hk
    cases hk

/-- A type with an optional keyword in front is read by what comes behind the keyword. -/
theorem optionalType_yields {α : Type} {k : Keyword} {f : Option Position → Reading α}
    {Q : α → List String → Prop} {hasKeyword loose : Bool} {ts : List String}
    (h : isMessageType ts = true) (hk : hasKeyword = false → startsWith [k.word] ts = false)
    (hf : ∀ first : Option Position, first.isSome = hasKeyword →
      Yields (f first) (glue loose ts ws) Q) :
    Yields (optionally k f) ((if hasKeyword then [k.word] else []) ++ glue loose ts ws) Q := by
  cases hasKeyword with
  | true => exact optionally_yields (lexes_keyword k _) fun p => hf (some p) rfl
  | false =>
    obtain ⟨kind, w, rest, hl, hne⟩ := lexes_type_ne loose h (hk rfl) [] (by simp) ws
    rw [List.append_nil] at hl
    exact optionally_yields_none hl hne (hf none rfl)

theorem isFieldType_messageType {ts : List String} (h : isFieldType ts = true) :
    isMessageType ts = true :=
  (Bool.and_eq_true_iff.1 h).1

theorem field_words (f : Field) (ws : List String) : Statement.words σ (.field f) ++ ";" :: ws =
    (if f.isRepeated then ["repeated"] else []) ++ glue σ.loose (nameTokens f.type)
      (f.name :: "=" :: f.number :: (settingsWords σ f.settings ++ ";" :: ws)) := by
  rw [← σ.name_append, Statement.words]
  simp

theorem field_yields (opts : Options) {f : Field} (h : (Statement.field f).isWellFormed = true)
    (hfirst : f.isRepeated = false → startsWith ["repeated"] (nameTokens f.type) = false)
    (ws : List String) : Yields (field opts) (Statement.words σ (.field f) ++ ";" :: ws)
      fun n ws' => Bare f n ∧ ws' = ws := by
  rw [field_words, field_eq]
  obtain ⟨type, name, number, isRepeated, ss⟩ := f
  simp only [Statement.isWellFormed, Bool.and_eq_true] at h
  obtain ⟨htype, hnumbered⟩ := h
  refine optionalType_yields (k := .kwRepeated) (isFieldType_messageType htype) hfirst ?_
  rintro first rfl
  refine (fieldType_yields htype (next_ident (isNumbered_ident hnumbered) _) nofun).bind ?_
  rintro ⟨_, start⟩ _ ⟨rfl, rfl⟩
  rw [join_nameTokens]
  exact numbered_yields σ opts (fun name number settings =>
    { type, name, number, isRepeated := first.isSome, settings : Field }) _ "fieldName" hnumbered ws

theorem keyType_yields {w : String} (h : keyTypes.contains w = true) (ws : List String) :
    Yields keyType (w :: ws) fun a ws' => a = w ∧ ws' = ws := by
  have hmem : w ∈ keyTypes := by simpa using h
  have hident : isIdent w.toList = true := by
    have hall : ∀ w ∈ keyTypes, isIdent w.toList = true := by decide +kernel
    exact hall w hmem
  refine yields_next_bind rfl (lexes_identifier .plain hident ws) fun r _ hr htext => ?_
  refine sat_text_bind ?_
  rw [htext, if_pos ⟨rfl, hmem⟩]
  exact sat_pure ⟨ws, hr, rfl, rfl⟩

theorem mapField_yields (opts : Options) {f : MapField}
    (h : (Statement.mapField f).isWellFormed = true) (ws : List String) :
    Yields (mapField opts) (Statement.words σ (.mapField f) ++ ";" :: ws) fun n ws' =>
      Bare f n ∧ ws' = ws := by
  obtain ⟨key, type, name, number, ss⟩ := f
  simp only [Statement.isWellFormed, Bool.and_eq_true] at h
  obtain ⟨⟨hkey, htype⟩, hnumbered⟩ := h
  have hwords : Statement.words σ (.mapField ⟨key, type, name, number, ss⟩) ++ ";" :: ws =
      "map" :: "<" :: key :: "," :: glue σ.loose (nameTokens type)
        (">" :: name :: "=" :: number :: (settingsWords σ ss ++ ";" :: ws)) := by
    rw [← σ.name_append, Statement.words]
    simp
  rw [hwords]
  refine (keyword_yields .kwMap _).bind ?_
  rintro start _ rfl
  refine (symbol_yields (d := .leftAngle) nofun _ _).bind ?_
  rintro _ _ rfl
  refine (keyType_yields hkey _).bind ?_
  rintro key' _ ⟨rfl, rfl⟩
  refine (symbol_yields (d := .comma) nofun _ _).bind ?_
  rintro _ _ rfl
  refine (fieldType_yields htype (next_symbol (d := .rightAngle) nofun _) nofun).bind ?_
  rintro ⟨_, _⟩ _ ⟨rfl, rfl⟩
  rw [join_nameTokens]
  refine (symbol_yields (d := .rightAngle) nofun _ _).bind ?_
  rintro _ _ rfl
  exact numbered_yields σ opts
    (fun name number settings => { keyType := key', type, name, number, settings : MapField }) start
    "mapName" hnumbered ws

/-- An integer without a sign is one of those that may have a sign. -/
theorem isIntLit_dropSign {w : List Char} (h : isIntLit w = true) : isIntLit (dropSign w) = true := by
  cases w with
  | nil => cases h
  | cons x rest =>
    have hsign : isSign x = false := by
      have hd : Text.isDigit x = true := (Scan.isIntLit_digit h).2 x rfl
      rw [← Bool.not_eq_true]
      intro hs
      rcases Scan.isSign_cases hs with rfl | rfl <;> exact absurd hd (by decide)
    rw [dropSign, if_neg (by rw [hsign]; exact Bool.false_ne_true)]
    exact h

/-- An enum value has at most one minus in front of its number. -/
theorem isEnumNumber_cases {w : String} (h : isEnumNumber w.toList = true) :
    isIntLit (dropSign w.toList) = true ∧ sign? w ≠ some '+' := by
  unfold isEnumNumber at h
  split at h
  · next rest hw =>
    refine ⟨by rw [hw]; exact h, ?_⟩
    unfold sign?
    rw [hw]
    simp
  · refine ⟨isIntLit_dropSign h, ?_⟩
    rw [sign?_of_digit (Scan.isIntLit_digit h).2]
    simp

theorem enumField_yields (opts : Options) {f : EnumField}
    (h : (Statement.enumField f).isWellFormed = true) (ws : List String) :
    Yields (enumField opts) (Statement.words σ (.enumField f) ++ ";" :: ws) fun n ws' =>
      Bare f n ∧ ws' = ws := by
  obtain ⟨name, number, ss⟩ := f
  simp only [Statement.isWellFormed, Bool.and_eq_true] at h
  obtain ⟨⟨hname, hnumber⟩, hss⟩ := h
  obtain ⟨hint, hsign⟩ := isEnumNumber_cases hnumber
  have hwords : Statement.words σ (.enumField ⟨name, number, ss⟩) ++ ";" :: ws =
      name :: "=" :: number :: (settingsWords σ ss ++ ";" :: ws) := by
    rw [Statement.words]
    simp
  rw [hwords]
  refine (ident_yields hname _ _).bind ?_
  rintro _ _ ⟨rfl, rfl⟩
  refine yields_position_bind fun start => (symbol_yields (d := .equals) nofun _ _).bind ?_
  rintro _ _ rfl
  refine yields_next_bind rfl (lexes_signed_int .number rfl hint _) fun r _ hr htext => ?_
  refine sat_text_bind ?_
  rw [htext, if_neg (by simp [hsign])]
  refine (settings_yields σ opts hss ws _ hr).bind ?_
  rintro _ r₁ ⟨_, hr₁, rfl, rfl⟩
  exact noted_yields _ start ws r₁ hr₁

/-- Ranges start with a number. -/
theorem lexes_ranges {r : NumberRange} {rs : List NumberRange}
    (h : (r :: rs).all NumberRange.isWellFormed = true) (ws : List String) :
    ∃ rest, Lexes .string (commaList ((r :: rs).map NumberRange.words) ++ ";" :: ws) .intLit r.first
      rest := by
  rw [List.all_cons, Bool.and_eq_true, NumberRange.isWellFormed, Bool.and_eq_true] at h
  have hfirst : ∃ more, r.words = r.first :: more := by
    unfold NumberRange.words
    split
    · exact ⟨_, rfl⟩
    · exact ⟨_, rfl⟩
  obtain ⟨more, hwords⟩ := hfirst
  rw [commaList_map, hwords]
  exact ⟨_, lexes_int .string h.1.1 _⟩

theorem lexes_names {name : String} {names : List String}
    (h : (name :: names).all (fun name => isStrLit name.toList) = true) (ws : List String) :
    ∃ rest, Lexes .string (commaList ((name :: names).map fun name => [name]) ++ ";" :: ws)
      .stringLit name rest := by
  rw [List.all_cons, Bool.and_eq_true] at h
  rw [commaList_map, List.append_assoc, List.singleton_append]
  exact ⟨_, lexes_string .string rfl h.1 ((Punctuated.semicolon ws).more _ names).head⟩

/-- The first word tells whether names or ranges are reserved. -/
theorem reserved_yields {r : Reserved} (h : (Statement.reserved r).isWellFormed = true)
    (ws : List String) : Yields reserved (Statement.words σ (.reserved r) ++ ";" :: ws)
      fun n ws' => Bare r n ∧ ws' = ws := by
  obtain ⟨ranges, names⟩ := r
  simp only [Statement.isWellFormed, Bool.and_eq_true, bne_iff_ne] at h
  obtain ⟨⟨hranges, hnames⟩, hone⟩ := h
  refine (keyword_yields .kwReserved _).bind ?_
  rintro start _ rfl
  cases ranges with
  | nil =>
    have hne : names ≠ [] := by
      rintro rfl
      exact hone rfl
    obtain ⟨name, rest, rfl⟩ := List.exists_cons_of_ne_nil hne
    obtain ⟨rest, hl⟩ := lexes_names hnames ws
    refine (peek_yields rfl hl).bind ?_
    rintro _ _ ⟨rfl, rfl⟩
    dsimp only
    rw [if_pos rfl]
    refine (reservedNames_yields hne hnames ws).bind ?_
    rintro _ _ ⟨rfl, rfl⟩
    exact noted_yields _ start ws
  | cons r ranges =>
    obtain rfl : names = [] := by
      cases names with
      | nil => rfl
      | cons name names => exact absurd rfl hone
    have hwords : commaList ((r :: ranges).map NumberRange.words ++ [].map fun name => [name]) =
        commaList ((r :: ranges).map NumberRange.words) := by
      rw [List.map_nil, List.append_nil]
    rw [hwords]
    obtain ⟨rest, hl⟩ := lexes_ranges hranges ws
    refine (peek_yields rfl hl).bind ?_
    rintro _ _ ⟨rfl, rfl⟩
    dsimp only
    rw [if_neg (by simp)]
    refine (ranges_yields (List.cons_ne_nil r ranges) hranges ws).bind ?_
    rintro _ _ ⟨rfl, rfl⟩
    exact noted_yields _ start ws

end Grammar

end ProtoIdl
