import ProtoIdl.Grammar.Statement
import ProtoIdl.Proofs.Recovery.Names
import Mathlib.Data.List.SplitBy
/-!
# Values are read back

Constants, settings, numbers and ranges. Each of them ends in front of a semicolon, a comma or a
closing bracket (`Punctuated`).
-/
namespace ProtoIdl

open Spelling
open Scan (wordKind isQuote isNumberTail)

variable {w : String} {ws : List String} {loose : Bool}

/-! ## Names as they are written -/

theorem join_map_ofList (parts : List (List Char)) :
    String.join (parts.map String.ofList) = String.ofList parts.flatten := by
  induction parts with
  | nil => rfl
  | cons part parts ih =>
    rw [List.map_cons, String.join_cons, ih, List.flatten_cons, String.ofList_append]

theorem join_nameTokens (name : String) : String.join (nameTokens name) = name := by
  rw [nameTokens, join_map_ofList, List.flatten_splitBy, String.ofList_toList]

/-- Names come apart where a word ends. -/
theorem nameTokens_append {v w : String}
    (h : ∀ x ∈ v.toList.getLast?, ∀ y ∈ w.toList.head?,
      (Text.isIdentChar x && Text.isIdentChar y) = false) :
    nameTokens (v ++ w) = nameTokens v ++ nameTokens w := by
  rw [nameTokens, nameTokens, nameTokens, String.toList_append, List.splitBy_append h,
    List.map_append]

theorem nameTokens_ident (h : isIdent w.toList = true) : nameTokens w = [w] := by
  have hall := List.all_eq_true.1 (all_of_isIdent h)
  have hne : w.toList ≠ [] := by
    intro hnil
    rw [hnil] at h
    cases h
  have hchain : w.toList.IsChain fun x y => (Text.isIdentChar x && Text.isIdentChar y) = true :=
    (List.pairwise_of_forall_mem_list fun x hx y hy => by rw [hall x hx, hall y hy]; rfl).isChain
  rw [nameTokens, List.splitBy_of_isChain hne hchain, List.map_singleton, String.ofList_toList]

/-- A word in front of a dot is the first token of a name. -/
theorem nameTokens_word_append {t : String} {ts : List String} (ht : isIdent t.toList = true)
    (hts : isDots ts = true) : nameTokens (t ++ String.join ts) = t :: nameTokens (String.join ts) := by
  rw [nameTokens_append, nameTokens_ident ht, List.singleton_append]
  intro x _ y hy
  have hhead := isDots_head [] hts (by simp) y (by simpa using hy)
  rw [hhead, Bool.and_false]

/-- A character that is none of a word is a token by itself. -/
theorem nameTokens_symbol {t : String} {x : Char} (ht : t.toList = [x])
    (hx : Text.isIdentChar x = false) (name : String) :
    nameTokens (t ++ name) = t :: nameTokens name := by
  have hsingle : nameTokens t = [t] := by
    rw [nameTokens, ht, List.splitBy_of_isChain (List.cons_ne_nil _ _) (List.isChain_singleton _),
      List.map_singleton, ← ht, String.ofList_toList]
  rw [nameTokens_append, hsingle, List.singleton_append]
  intro y hy z _
  rw [ht] at hy
  obtain rfl : x = y := by simpa using hy
  rw [hx, Bool.false_and]

theorem nameTokens_dots {ts : List String} (h : isDots ts = true) :
    nameTokens (String.join ts) = ts := by
  induction ts using isDots.induct with
  | case1 => rfl
  | case2 => cases h
  | case3 dot part rest ih =>
    simp only [isDots, Bool.and_eq_true, beq_iff_eq] at h
    obtain ⟨⟨rfl, hpart⟩, hrest⟩ := h
    rw [String.join_cons, String.join_cons, nameTokens_symbol (x := '.') rfl (by decide),
      nameTokens_word_append hpart hrest, ih hrest]

/-- The tokens of a name are those that it is made of. -/
theorem nameTokens_join {ts : List String} (h : isFullIdent ts = true) :
    nameTokens (String.join ts) = ts := by
  obtain ⟨first, rest, rfl, hfirst, hrest⟩ := isFullIdent_cases h
  rw [String.join_cons, nameTokens_word_append hfirst hrest, nameTokens_dots hrest]

theorem Style.name_append (σ : Style) (name : String) (ws : List String) :
    σ.name name ++ ws = glue σ.loose (nameTokens name) ws := by
  unfold Style.name glue
  split
  · rfl
  · rw [join_nameTokens]
    rfl

/-- The tokens of a constant. -/
def constantTokens (w : String) : List String := if isLiteral w then [w] else nameTokens w

/-! ## Ends of values -/

/-- The words start with what ends a value. -/
inductive Punctuated : List String → Prop
  | semicolon (ws : List String) : Punctuated (";" :: ws)
  | comma (ws : List String) : Punctuated ("," :: ws)
  | bracket (ws : List String) : Punctuated ("]" :: ws)

theorem Punctuated.exists_symbol (h : Punctuated ws) : ∃ d rest, ws = Delimiter.symbol d :: rest ∧
    d ∈ [Delimiter.semicolon, Delimiter.comma, Delimiter.rightBracket] := by
  cases h with
  | semicolon rest => exact ⟨.semicolon, rest, rfl, by decide⟩
  | comma rest => exact ⟨.comma, rest, rfl, by decide⟩
  | bracket rest => exact ⟨.rightBracket, rest, rfl, by decide⟩

theorem Punctuated.lexes (h : Punctuated ws) (mode : Mode) (hn : mode.numbers = false)
    (hs : mode.strings = false) :
    ∃ d w rest, d ≠ Delimiter.dot ∧ Lexes mode ws (.delimiter d) w rest := by
  obtain ⟨d, rest, rfl, hd⟩ := h.exists_symbol
  refine ⟨d, _, _, ?_, lexes_symbol ?_ hn hs rest⟩
  · rintro rfl
    exact absurd hd (by decide)
  · rintro rfl
    exact absurd hd (by decide)

/-- No string follows a value. -/
theorem Punctuated.head (h : Punctuated ws) : ∀ x ∈ (front ws).head?, isQuote x = false := by
  obtain ⟨d, rest, rfl, hd⟩ := h.exists_symbol
  have hslash : d ≠ .slash := by
    rintro rfl
    exact absurd hd (by decide)
  obtain ⟨tail, hf⟩ := (Delimiter.spells_symbol hslash).shows.front_cons rest
  rw [hf]
  simp only [List.mem_cons, List.not_mem_nil, or_false] at hd
  rcases hd with rfl | rfl | rfl
  all_goals
    intro x hx
    obtain rfl := Option.some.inj hx
    decide

/-- What a constant may stand in front of: no dot, and no string. -/
structure Halts (ws : List String) : Prop where
  next : ∃ kind, Next kind ws ∧ kind ≠ .delimiter .dot
  head : ∀ x ∈ (front ws).head?, isQuote x = false

theorem Halts.of_front {ws' : List String} (h : Halts ws) (hf : front ws = front ws') :
    Halts ws' where
  next := by
    obtain ⟨kind, hnext, hdot⟩ := h.next
    exact ⟨kind, hnext.of_front hf, hdot⟩
  head := hf ▸ h.head

theorem Halts.glue_nil (h : Halts ws) (loose : Bool) : Halts (glue loose [] ws) :=
  h.of_front (front_glue_nil loose ws).symm

theorem Punctuated.halts (h : Punctuated ws) : Halts ws where
  next := by
    obtain ⟨d, w, rest, hd, hl⟩ := h.lexes .plain rfl rfl
    exact ⟨.delimiter d, ⟨w, rest, hl⟩, fun h => hd (Kind.delimiter.inj h)⟩
  head := h.head

/-! ## Lists with commas -/

/-- What stands behind the first item of a list. -/
def moreWords {α : Type} (words : α → List String) (items : List α) : List String :=
  items.flatMap fun a => "," :: words a

section
variable {α : Type} {words : α → List String} {stop rest : List String}

theorem commaList_map (words : α → List String) (a : α) (items : List α) :
    commaList ((a :: items).map words) = words a ++ moreWords words items := by
  rw [List.map_cons, commaList, List.flatMap_map, moreWords]

theorem moreWords_cons (a : α) (items : List α) :
    moreWords words (a :: items) ++ stop = "," :: (words a ++ (moreWords words items ++ stop)) := by
  simp [moreWords]

theorem Punctuated.more (h : Punctuated stop) (words : α → List String) :
    (items : List α) → Punctuated (moreWords words items ++ stop)
  | [] => h
  | a :: items => by
    rw [moreWords_cons]
    exact .comma _

theorem ink_comma (us : List String) : ink us < ink ("," :: us) :=
  (Delimiter.spells_symbol (d := .comma) nofun).shows.ink_pos us

end

namespace Grammar

open Reading

variable (σ : Style)

/-! ## Constants -/

section
variable {us : List String} (hus : ∀ x ∈ (String.join us).toList.head?, isNumberTail x = false)
  (hws : Halts (glue loose us ws))
include hus hws

/-- A literal is one token where literals are wanted. -/
theorem lexes_literal (h : isLiteral w = true) : ∃ kind, kind.isLiteral = true ∧
    Lexes .literal (glue loose (w :: us) ws) kind w (glue loose us ws) := by
  have hcases : isStrLit w.toList = true ∨ isNumber w.toList = true ∨ w = "true" ∨ w = "false" := by
    simpa [isLiteral, or_assoc] using h
  have hword (hw : isIdent w.toList = true) : Lexes .literal (glue loose (w :: us) ws)
      (wordKind .literal w) w (glue loose us ws) :=
    lexes_ident .literal loose hw (fun x hx => (Bool.or_eq_false_iff.1 (hus x hx)).1) ws
  rcases hcases with h | h | rfl | rfl
  · exact ⟨.stringLit, rfl, lexes_string_glued .literal loose rfl h hws.head⟩
  · obtain ⟨kind, hk, hl⟩ : ∃ kind ∈ [Kind.intLit, .floatLit],
        Lexes .literal (glue loose (w :: us) ws) kind w (glue loose us ws) :=
      lexes_number loose rfl h hus ws
    simp only [List.mem_cons, List.not_mem_nil, or_false] at hk
    exact ⟨kind, by rcases hk with rfl | rfl <;> rfl, hl⟩
  · exact ⟨.boolLit, rfl, hword (by decide +kernel)⟩
  · exact ⟨.boolLit, rfl, hword (by decide +kernel)⟩

end

theorem wordKind_literal (h : w ∉ ["true", "false", "inf", "nan"]) :
    wordKind .literal w = .ident := by
  simp only [List.mem_cons, List.not_mem_nil, or_false, not_or] at h
  obtain ⟨htrue, hfalse, hinf, hnan⟩ := h
  have hbool : (Mode.literal.booleans && (w == "true" || w == "false")) = false := by
    rw [beq_eq_false_iff_ne.2 htrue, beq_eq_false_iff_ne.2 hfalse]
    rfl
  have hnumber : (Mode.literal.numbers && (w == "inf" || w == "nan")) = false := by
    rw [beq_eq_false_iff_ne.2 hinf, beq_eq_false_iff_ne.2 hnan]
    rfl
  unfold wordKind
  rw [hbool, hnumber]
  rfl

/-- A constant is read from its tokens, up to what cannot go on in a number. -/
theorem constant_glued (curly : Bool) {us : List String}
    (hus : ∀ x ∈ (String.join us).toList.head?, isNumberTail x = false)
    (hws : Halts (glue loose us ws)) (h : isConstant w = true) :
    Yields (constant? curly) (glue loose (constantTokens w ++ us) ws) fun a ws' =>
      a.1 = some w ∧ ws' = glue loose us ws := by
  unfold constantTokens
  by_cases hlit : isLiteral w = true
  · rw [if_pos hlit]
    obtain ⟨kind, hk, hl⟩ := lexes_literal hus hws hlit
    refine yields_next_bind rfl hl fun r _ hr htext => sat_position_bind ?_
    rw [if_pos hk]
    exact sat_text_bind (sat_pure ⟨_, hr, by rw [htext], rfl⟩)
  · rw [if_neg hlit]
    have hname : isFullIdent (nameTokens w) = true ∧
        startsWith ["true", "false", "inf", "nan"] (nameTokens w) = false := by
      simpa [isConstant, hlit] using h
    obtain ⟨hfull, hfirst⟩ := hname
    obtain ⟨first, rest, hts, hident, hdots⟩ := isFullIdent_cases hfull
    have hword : first ∉ ["true", "false", "inf", "nan"] := by
      rw [hts, ← Bool.not_eq_true, startsWith_cons] at hfirst
      exact hfirst
    have hchars : ∀ x ∈ (String.join us).toList.head?, Text.isIdentChar x = false :=
      fun x hx => (Bool.or_eq_false_iff.1 (hus x hx)).1
    have hl : Lexes .literal (glue loose (nameTokens w ++ us) ws) (wordKind .literal first) first
        (glue loose (rest ++ us) ws) :=
      hts ▸ lexes_ident .literal loose hident (isDots_head us hdots hchars) ws
    rw [wordKind_literal hword] at hl
    obtain ⟨next, hnext, hdot⟩ := hws.next
    refine yields_next_bind rfl hl fun r hr _ _ => sat_position_bind ?_
    rw [if_neg (by decide)]
    refine (hr.putBack rfl hl.bare).bind fun _ r₁ hr₁ => ?_
    refine (fullIdent_glued us hchars hnext hdot hfull r₁ hr₁).bind ?_
    rintro ⟨name, start⟩ r₂ ⟨_, hr₂, rfl, rfl⟩
    exact sat_pure ⟨_, hr₂, by rw [join_nameTokens], rfl⟩

/-- A constant of a style is read in front of the words behind it. -/
theorem constant_yields (curly : Bool) (h : isConstant w = true) (hws : Halts ws) :
    Yields (constant? curly) (σ.constant w ++ ws) fun a ws' => a.1 = some w ∧ ws' = ws := by
  have hglued (loose : Bool) : Yields (constant? curly) (glue loose (constantTokens w) ws)
      fun a ws' => a.1 = some w ∧ ws' = ws := by
    have hempty : ∀ x ∈ (String.join []).toList.head?, isNumberTail x = false := by simp
    exact (constant_glued curly hempty (hws.glue_nil loose) h).unglue
  unfold Style.constant
  by_cases hlit : isLiteral w = true
  · have htokens := hglued true
    rw [constantTokens, if_pos hlit] at htokens
    rwa [if_pos hlit]
  · have htokens := hglued σ.loose
    rw [constantTokens, if_neg hlit] at htokens
    rwa [if_neg hlit, σ.name_append]

section
variable {α : Type} {words : α → List String} {stop rest : List String}

/-- A loop that reads an item behind every comma reads the list up to where no comma comes. -/
theorem yields_list {P : α → Prop} {round : List α → Reading (Round (List α) (List α))}
    (hagain : ∀ done a items, P a → Yields (round done)
      ("," :: (words a ++ (moreWords words items ++ stop)))
      fun x ws' => x = .again (done ++ [a]) ∧ ws' = moreWords words items ++ stop)
    (hdone : ∀ done, Yields (round done) stop fun x ws' => x = .done done ∧ ws' = rest)
    (done items : List α) (h : ∀ a ∈ items, P a) :
    Yields (repeatFrom done round) (moreWords words items ++ stop) fun a ws' =>
      a = done ++ items ∧ ws' = rest := by
  refine yields_items (fun items => moreWords words items ++ stop) (fun done a items ha => ?_)
    hdone (fun a items _ => ?_) done items h
  · rw [moreWords_cons]
    exact hagain done a items ha
  · rw [moreWords_cons]
    refine Nat.lt_of_le_of_lt ?_ (ink_comma _)
    simp only [ink_append]
    omega

end

/-! ## Settings -/

theorem setting_yields (opts : Options) {s : Setting} (h : s.isWellFormed = true)
    (hws : Punctuated ws) :
    Yields (setting opts) (s.words σ ++ ws) fun a ws' => a = s ∧ ws' = ws := by
  rw [Setting.isWellFormed, Bool.and_eq_true] at h
  rw [Setting.words, List.append_assoc, List.cons_append, σ.name_append]
  refine (optionName_yields h.1 (next_symbol (d := .equals) nofun _) nofun).bind ?_
  rintro _ _ ⟨rfl, rfl⟩
  refine (symbol_yields (d := .equals) nofun _ _).bind ?_
  rintro _ _ rfl
  refine (constant_yields σ _ h.2 hws.halts).bind ?_
  rintro ⟨_, _⟩ _ ⟨rfl, rfl⟩
  exact yields_pure ⟨by rw [join_nameTokens], rfl⟩

/-- Settings stand in brackets in front of a semicolon; without settings there are no brackets. -/
theorem settings_yields (opts : Options) {ss : List Setting}
    (h : ss.all Setting.isWellFormed = true) (ws : List String) :
    Yields (settings opts) (settingsWords σ ss ++ ";" :: ws) fun a ws' =>
      a = ss ∧ ws' = ";" :: ws := by
  cases ss with
  | nil =>
    refine (accept_yields_false (d := .leftBracket)
      (lexes_symbol (d := .semicolon) nofun rfl rfl ws) nofun).bind ?_
    rintro _ _ ⟨rfl, rfl⟩
    exact yields_pure ⟨rfl, rfl⟩
  | cons s ss =>
    rw [List.all_cons, Bool.and_eq_true, List.all_eq_true] at h
    have hwords : settingsWords σ (s :: ss) ++ ";" :: ws =
        "[" :: (s.words σ ++ (moreWords (Setting.words σ) ss ++ "]" :: ";" :: ws)) := by
      unfold settingsWords
      rw [List.isEmpty_cons, if_neg Bool.false_ne_true, commaList_map]
      simp
    have hstop := Punctuated.bracket (";" :: ws)
    rw [hwords]
    refine (accept_yields (lexes_symbol (d := .leftBracket) nofun rfl rfl _)).bind ?_
    rintro _ _ ⟨rfl, rfl⟩
    refine (setting_yields σ opts h.1 (hstop.more _ ss)).bind ?_
    rintro first _ ⟨rfl, rfl⟩
    refine yields_list (P := fun s => s.isWellFormed = true) (fun done a items ha => ?_)
      (fun done => ?_) [first] ss h.2
    · refine yields_next_bind rfl (lexes_symbol (d := .comma) nofun rfl rfl _) fun r _ hr _ => ?_
      refine (setting_yields σ opts ha (hstop.more _ items) _ hr).bind ?_
      rintro _ r' ⟨_, hr', rfl, rfl⟩
      exact sat_pure ⟨_, hr', rfl, rfl⟩
    · exact yields_next_bind rfl (lexes_symbol (d := .rightBracket) nofun rfl rfl _)
        fun r _ hr _ => sat_pure ⟨_, hr, rfl, rfl⟩

/-! ## Numbers -/

theorem sign?_of_digit (h : ∀ x ∈ w.toList.head?, Text.isDigit x = true) : sign? w = none := by
  unfold sign?
  cases hw : w.toList.head? with
  | none => rfl
  | some x =>
    have hx := h x hw
    rw [Option.filter_eq_none_iff]
    rintro _ ⟨⟩ hsign
    have hcases : x = '+' ∨ x = '-' := by simpa using hsign
    rcases hcases with rfl | rfl <;> exact absurd hx (by decide)

theorem fieldNumber_yields (h : isIntLit w.toList = true) (ws : List String) :
    Yields fieldNumber (w :: ws) fun a ws' => a = w ∧ ws' = ws := by
  refine yields_next_bind rfl (lexes_int .number h ws) fun r _ hr htext => sat_text_bind ?_
  rw [htext, if_pos ⟨rfl, sign?_of_digit (Scan.isIntLit_digit h).2⟩]
  exact sat_pure ⟨ws, hr, rfl, rfl⟩

theorem range_yields {r : NumberRange} (h : r.isWellFormed = true) (hws : Punctuated ws) :
    Yields range (r.words ++ ws) fun a ws' => a = r ∧ ws' = ws := by
  obtain ⟨first, last⟩ := r
  have h : isIntLit first.toList = true ∧ (last = "" ∨ last = "max" ∨ isIntLit last.toList = true) := by
    simpa [NumberRange.isWellFormed, or_assoc] using h
  obtain ⟨hfirst, hlast⟩ := h
  unfold NumberRange.words
  dsimp only
  by_cases hnone : last = ""
  · subst hnone
    obtain ⟨d, w, rest, -, hl⟩ := hws.lexes .keyword rfl rfl
    rw [if_pos rfl]
    refine (expect_yields rfl (lexes_int .number hfirst ws) _).bind ?_
    rintro _ _ ⟨rfl, rfl⟩
    refine yields_next_bind rfl hl fun r hr _ _ => ?_
    rw [if_neg nofun]
    exact (hr.putBack rfl hl.bare).bind fun _ r' hr' => sat_pure ⟨_, hr', rfl, rfl⟩
  · rw [if_neg hnone]
    refine (expect_yields rfl (lexes_int .number hfirst _) _).bind ?_
    rintro _ _ ⟨rfl, rfl⟩
    refine yields_next_bind rfl (lexes_keyword .kwTo (last :: ws)) fun r _ hr _ => ?_
    rw [if_pos rfl]
    have hmode : (Mode.union .keyword .number).comments = false := rfl
    rcases hlast.resolve_left hnone with rfl | hlast
    · have hmax := lexes_identifier (.union .keyword .number) (isIdent_keyword .kwMax) ws
      have hkind : wordKind (.union .keyword .number) Keyword.kwMax.word = .keyword .kwMax := by
        decide
      rw [hkind] at hmax
      refine yields_next_bind hmode hmax (fun r' _ hr' htext => ?_) _ hr
      refine sat_text_bind (sat_pure ⟨ws, hr', ?_, rfl⟩)
      rw [htext]
      rfl
    · have hint := lexes_int (.union .keyword .number) hlast ws
      refine yields_next_bind hmode hint (fun r' _ hr' htext => ?_) _ hr
      exact sat_text_bind (sat_pure ⟨ws, hr', by rw [htext], rfl⟩)

theorem ranges_yields {rs : List NumberRange} (hne : rs ≠ [])
    (h : rs.all NumberRange.isWellFormed = true) (ws : List String) :
    Yields ranges (commaList (rs.map NumberRange.words) ++ ";" :: ws) fun a ws' =>
      a = rs ∧ ws' = ";" :: ws := by
  obtain ⟨r, rs, rfl⟩ := List.exists_cons_of_ne_nil hne
  rw [List.all_cons, Bool.and_eq_true, List.all_eq_true] at h
  have hstop := Punctuated.semicolon ws
  rw [commaList_map, List.append_assoc]
  refine (range_yields h.1 (hstop.more _ rs)).bind ?_
  rintro first _ ⟨rfl, rfl⟩
  refine yields_list (P := fun r => r.isWellFormed = true) (fun done a items ha => ?_)
    (fun done => ?_) [first] rs h.2
  · refine (accept_yields (lexes_symbol (d := .comma) nofun rfl rfl _)).bind ?_
    rintro _ _ ⟨rfl, rfl⟩
    refine (range_yields ha (hstop.more _ items)).bind ?_
    rintro _ _ ⟨rfl, rfl⟩
    exact yields_pure ⟨rfl, rfl⟩
  · refine (accept_yields_false (d := .comma)
      (lexes_symbol (d := .semicolon) nofun rfl rfl _) nofun).bind ?_
    rintro _ _ ⟨rfl, rfl⟩
    exact yields_pure ⟨rfl, rfl⟩

/-- Reserved names are strings; a comma is read with the name in front of it. -/
theorem reservedNames_yields {names : List String} (hne : names ≠ [])
    (h : names.all (fun name => isStrLit name.toList) = true) (ws : List String) :
    Yields reservedNames (commaList (names.map fun name => [name]) ++ ";" :: ws) fun a ws' =>
      a = names ∧ ws' = ";" :: ws := by
  refine yields_repeatFrom (I := fun done ws' => ∃ names', names' ≠ [] ∧
    names'.all (fun name => isStrLit name.toList) = true ∧ done ++ names' = names ∧
      ws' = commaList (names'.map fun name => [name]) ++ ";" :: ws) ⟨names, hne, h, rfl, rfl⟩ ?_
  rintro done _ ⟨names', hne', hall, rfl, rfl⟩
  obtain ⟨name, rest, rfl⟩ := List.exists_cons_of_ne_nil hne'
  rw [List.all_cons, Bool.and_eq_true] at hall
  have hstop := (Punctuated.semicolon ws).more (fun name => [name]) rest
  rw [commaList_map, List.append_assoc, List.singleton_append]
  have hl := lexes_string .string rfl hall.1 hstop.head
  refine (expect_yields rfl hl _).bind ?_
  rintro _ _ ⟨rfl, rfl⟩
  cases rest with
  | nil =>
    refine (accept_yields_false (d := .comma)
      (lexes_symbol (d := .semicolon) nofun rfl rfl ws) nofun).bind ?_
    rintro _ _ ⟨rfl, rfl⟩
    exact yields_pure ⟨rfl, rfl⟩
  | cons name' rest =>
    rw [moreWords_cons]
    refine (accept_yields (lexes_symbol (d := .comma) nofun rfl rfl _)).bind ?_
    rintro _ _ ⟨rfl, rfl⟩
    refine yields_pure ⟨⟨name' :: rest, nofun, hall.2, ?_, ?_⟩, ?_⟩
    · rw [List.append_assoc, List.singleton_append]
    · rw [commaList_map, List.append_assoc]
    · exact (ink_comma _).trans ((shows_string hall.1).ink_pos _)

end Grammar

end ProtoIdl
