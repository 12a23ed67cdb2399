import ProtoIdl.Grammar.Name
import ProtoIdl.Proofs.Recovery.Words
import ProtoIdl.Proofs.Tree.Render
/-!
# Names are read back

A name is read from its tokens, whether they are written with blanks between them or as one word. It
ends in front of whatever is no dot.
-/
namespace ProtoIdl

open Spelling
open Scan (wordKind)

variable {w : String} {ts ws : List String} {loose : Bool}

/-! ## Single words -/

theorem lexes_symbol {mode : Mode} {d : Delimiter} (hd : d ≠ .slash) (hn : mode.numbers = false)
    (hs : mode.strings = false) (ws : List String) :
    Lexes mode (d.symbol :: ws) (.delimiter d) d.symbol ws :=
  lexes_delimiter true (Delimiter.spells_symbol hd) hn hs [] ws

theorem lexes_identifier (mode : Mode) (hw : isIdent w.toList = true) (ws : List String) :
    Lexes mode (w :: ws) (wordKind mode w) w ws := by
  have hl : Lexes mode (glue true [w] ws) (wordKind mode w) w (glue true [] ws) :=
    lexes_ident mode true hw (by simp) ws
  exact hl

theorem isIdent_keyword (k : Keyword) : isIdent k.word.toList = true := by
  cases k <;> decide +kernel

theorem wordKind_keyword (k : Keyword) : wordKind .keyword k.word = .keyword k := by
  cases k <;> decide

theorem lexes_keyword (k : Keyword) (ws : List String) :
    Lexes .keyword (k.word :: ws) (.keyword k) k.word ws := by
  have hl := lexes_identifier .keyword (isIdent_keyword k) ws
  rwa [wordKind_keyword] at hl

/-- Where words may be keywords, a word that spells none of them is an identifier. -/
theorem wordKind_keyword_cases (w : String) : wordKind .keyword w = .ident ∨
    ∃ k : Keyword, wordKind .keyword w = .keyword k ∧ k.word = w := by
  unfold wordKind
  cases hw : Keyword.ofWord? w with
  | none => exact .inl (by simp [Mode.keyword])
  | some k => exact .inr ⟨k, by simp [Mode.keyword], Keyword.word_of_ofWord? hw⟩

namespace Reading

theorem symbol_yields {d : Delimiter} (hd : d ≠ .slash) (expected : String) (ws : List String) :
    Yields (expectDelimiter d expected) (d.symbol :: ws) fun _ ws' => ws' = ws :=
  expectDelimiter_yields (lexes_symbol hd rfl rfl ws) expected

theorem keyword_yields (k : Keyword) (ws : List String) :
    Yields (expectKeyword k) (k.word :: ws) fun _ ws' => ws' = ws :=
  (expect_yields rfl (lexes_keyword k ws) _).bind fun _ _ h _ hr => position_sat.mono fun _ _ hp =>
    ⟨ws, hp.2 ▸ h.2 ▸ hr, rfl⟩

theorem ident_yields (hw : isIdent w.toList = true) (expected : String) (ws : List String) :
    Yields (expectIdent expected) (w :: ws) fun a ws' => a = w ∧ ws' = ws :=
  expectIdent_yields (lexes_identifier .plain hw ws) expected

end Reading

/-! ## Dotted names -/

theorem Spelling.startsWith_iff {words : List String} {t : String} (h : ts.head? = some t) :
    startsWith words ts = true ↔ t ∈ words := by
  simp only [startsWith, List.any_eq_true, h, beq_iff_eq, Option.some.injEq]
  constructor
  · rintro ⟨w, hw, rfl⟩
    exact hw
  · intro ht
    exact ⟨t, ht, rfl⟩

theorem Spelling.startsWith_cons {words : List String} {t : String} :
    startsWith words (t :: ts) = true ↔ t ∈ words :=
  startsWith_iff rfl

/-- The next token on these words, in the mode that knows neither keywords nor literals. -/
def Next (kind : Kind) (ws : List String) : Prop := ∃ w rest, Lexes .plain ws kind w rest

theorem next_symbol {d : Delimiter} (hd : d ≠ .slash) (ws : List String) :
    Next (.delimiter d) (d.symbol :: ws) :=
  ⟨_, _, lexes_symbol hd rfl rfl ws⟩

theorem next_ident (hw : isIdent w.toList = true) (ws : List String) : Next .ident (w :: ws) :=
  ⟨_, _, lexes_identifier .plain hw ws⟩

theorem Next.of_front {kind : Kind} {ws' : List String} (h : Next kind ws)
    (hf : front ws = front ws') : Next kind ws' := by
  obtain ⟨w, rest, hl⟩ := h
  exact ⟨w, rest, hl.of_front hf⟩

theorem Next.glue_nil {kind : Kind} (h : Next kind ws) (loose : Bool) :
    Next kind (glue loose [] ws) :=
  h.of_front (front_glue_nil loose ws).symm

/-- Where a name ends, the words behind it are left. -/
theorem Reading.Yields.unglue {α : Type} {x : Reading α} {P : α → Prop}
    (h : Yields x (glue loose (ts ++ []) ws) fun a ws' => P a ∧ ws' = glue loose [] ws) :
    Yields x (glue loose ts ws) fun a ws' => P a ∧ ws' = ws := by
  rw [List.append_nil] at h
  intro r hr
  refine (h r hr).mono ?_
  rintro a r' ⟨_, hr', ha, rfl⟩
  exact ⟨ws, hr'.of_front (front_glue_nil loose ws), ha, rfl⟩

theorem isDots_cases (h : isDots ts = true) : ts = [] ∨ ∃ part rest, ts = "." :: part :: rest ∧
    isIdent part.toList = true ∧ isDots rest = true := by
  match ts with
  | [] => exact .inl rfl
  | [_] => cases h
  | dot :: part :: rest =>
    simp only [isDots, Bool.and_eq_true, beq_iff_eq] at h
    obtain ⟨⟨rfl, hpart⟩, hrest⟩ := h
    exact .inr ⟨part, rest, rfl, hpart, hrest⟩

/-- Behind a word of a name comes no character of a word. -/
theorem isDots_head (us : List String) (h : isDots ts = true)
    (hus : ∀ x ∈ (String.join us).toList.head?, Text.isIdentChar x = false) :
    ∀ x ∈ (String.join (ts ++ us)).toList.head?, Text.isIdentChar x = false := by
  rcases isDots_cases h with rfl | ⟨part, rest, rfl, -⟩
  · exact hus
  · intro x hx
    rw [List.cons_append, String.join_cons, String.toList_append] at hx
    have hdot : ".".toList = ['.'] := rfl
    rw [hdot] at hx
    obtain rfl : '.' = x := by simpa using hx
    decide

theorem isFullIdent_cases (h : isFullIdent ts = true) : ∃ first rest, ts = first :: rest ∧
    isIdent first.toList = true ∧ isDots rest = true := by
  cases ts with
  | nil => cases h
  | cons first rest =>
    rw [isFullIdent, Bool.and_eq_true] at h
    exact ⟨first, rest, rfl, h⟩

namespace Grammar

open Reading

variable {kind : Kind}

/-- A name with a dot in front, or without one. -/
theorem isMessageType_cases (h : isMessageType ts = true) :
    (∃ rest, ts = "." :: rest ∧ isFullIdent rest = true) ∨ isFullIdent ts = true := by
  unfold isMessageType at h
  split at h
  · next hdot =>
    cases ts with
    | nil => cases hdot
    | cons t rest =>
      obtain rfl : t = "." := List.mem_singleton.1 (startsWith_cons.1 hdot)
      exact .inl ⟨rest, rfl, h⟩
  · exact .inr h

theorem lexes_dot (rest ws : List String) : Lexes .plain (glue loose ("." :: rest) ws)
    (.delimiter .dot) "." (glue loose rest ws) :=
  lexes_delimiter loose (Delimiter.spells_symbol (d := .dot) nofun) rfl rfl rest ws

/-- An identifier or a name in brackets, and words behind dots. -/
theorem isOptionName_cases (h : isOptionName ts = true) : isFullIdent ts = true ∨
    ∃ inner rest, ts = "(" :: inner ++ ")" :: rest ∧ isFullIdent inner = true ∧
      isDots rest = true := by
  unfold isOptionName at h
  split at h
  · next hparen =>
    cases ts with
    | nil => cases hparen
    | cons t more =>
      obtain rfl : t = "(" := List.mem_singleton.1 (startsWith_cons.1 hparen)
      rw [List.tail_cons, Bool.and_eq_true, Bool.and_eq_true] at h
      obtain ⟨⟨hinner, hclose⟩, hrest⟩ := h
      refine .inr ⟨_, _, ?_, hinner, hrest⟩
      cases hdrop : more.dropWhile (· != ")") with
      | nil =>
        rw [hdrop] at hclose
        cases hclose
      | cons t rest =>
        rw [hdrop] at hclose
        obtain rfl : t = ")" := List.mem_singleton.1 (startsWith_cons.1 hclose)
        rw [List.tail_cons, List.cons_append, ← hdrop, List.takeWhile_append_dropWhile]
  · exact .inl h

section
variable (us : List String)
  (hus : ∀ x ∈ (String.join us).toList.head?, Text.isIdentChar x = false)
  (hnext : Next kind (glue loose us ws)) (hk : kind ≠ .delimiter .dot)

include hus hnext hk

theorem dottedRound_yields (name : String) (h : isDots ts = true) :
    Yields (dottedRound name) (glue loose (ts ++ us) ws)
      (Round.Meets (fun name' ws' => (∃ ts', isDots ts' = true ∧ ws' = glue loose (ts' ++ us) ws ∧
          name' ++ String.join ts' = name ++ String.join ts) ∧
            ink ws' < ink (glue loose (ts ++ us) ws))
        fun a ws' => a = name ++ String.join ts ∧ ws' = glue loose us ws) := by
  rcases isDots_cases h with rfl | ⟨part, rest, rfl, hpart, hrest⟩
  · obtain ⟨w, rest, hl⟩ := hnext
    refine (accept_yields_false hl hk).bind ?_
    rintro _ _ ⟨rfl, rfl⟩
    exact yields_pure ⟨by simp, rfl⟩
  · have hdot : Lexes .plain (glue loose ("." :: part :: (rest ++ us)) ws) (.delimiter .dot) "."
        (glue loose (part :: (rest ++ us)) ws) :=
      lexes_delimiter loose (Delimiter.spells_symbol (d := .dot) nofun) rfl rfl _ ws
    refine (accept_yields hdot).bind ?_
    rintro _ _ ⟨rfl, rfl⟩
    have hword := lexes_ident .plain loose hpart (isDots_head us hrest hus) ws
    refine (expectIdent_yields hword _).bind ?_
    rintro _ _ ⟨rfl, rfl⟩
    refine yields_pure ⟨⟨rest, hrest, rfl, ?_⟩, ?_⟩
    · rw [String.join_cons, String.join_cons, String.append_assoc, String.append_assoc]
    · have := (shows_ident hpart).ink_pos rest
      simp only [ink_glue, ink_append, ink_cons, List.cons_append] at this ⊢
      omega

theorem dotted_glued (name : String) (h : isDots ts = true) :
    Yields (dotted name) (glue loose (ts ++ us) ws) fun a ws' =>
      a = name ++ String.join ts ∧ ws' = glue loose us ws := by
  refine yields_repeatFrom (I := fun name' ws' => ∃ ts', isDots ts' = true ∧
    ws' = glue loose (ts' ++ us) ws ∧ name' ++ String.join ts' = name ++ String.join ts)
    ⟨ts, h, rfl, rfl⟩ ?_
  rintro name' _ ⟨ts', hts', rfl, hname⟩
  rw [← hname]
  exact dottedRound_yields us hus hnext hk name' hts'

theorem fullIdent_glued (h : isFullIdent ts = true) :
    Yields fullIdent (glue loose (ts ++ us) ws) fun a ws' =>
      a.1 = String.join ts ∧ ws' = glue loose us ws := by
  obtain ⟨first, rest, rfl, hfirst, hrest⟩ := isFullIdent_cases h
  have hword := lexes_ident .plain loose hfirst (isDots_head us hrest hus) ws
  refine (expectIdent_yields hword _).bind ?_
  rintro _ _ ⟨rfl, rfl⟩
  refine yields_position_bind fun start => (dotted_glued us hus hnext hk _ hrest).bind ?_
  rintro _ _ ⟨rfl, rfl⟩
  exact yields_pure ⟨String.join_cons.symm, rfl⟩

theorem messageType_glued (h : isMessageType ts = true) :
    Yields messageType (glue loose (ts ++ us) ws) fun a ws' =>
      a.1 = String.join ts ∧ ws' = glue loose us ws := by
  rcases isMessageType_cases h with ⟨rest, rfl, hrest⟩ | h
  · refine (accept_yields (lexes_dot (rest ++ us) ws)).bind ?_
    rintro _ _ ⟨rfl, rfl⟩
    refine yields_position_bind fun start => (fullIdent_glued us hus hnext hk hrest).bind ?_
    rintro ⟨name, _⟩ _ ⟨rfl, rfl⟩
    exact yields_pure ⟨String.join_cons.symm, rfl⟩
  · obtain ⟨first, rest, rfl, hfirst, hrest⟩ := isFullIdent_cases h
    have hl := lexes_ident .plain loose hfirst (isDots_head us hrest hus) ws
    refine (accept_yields_false hl nofun).bind ?_
    rintro _ _ ⟨rfl, rfl⟩
    exact fullIdent_glued us hus hnext hk h

/-- A name that is no built-in type goes on behind its first word, or has a dot in front. -/
theorem fieldType_glued (h : isFieldType ts = true) :
    Yields fieldType (glue loose (ts ++ us) ws) fun a ws' =>
      a.1 = String.join ts ∧ ws' = glue loose us ws := by
  rw [isFieldType, Bool.and_eq_true] at h
  obtain ⟨htype, hscalar⟩ := h
  have hname := messageType_glued us hus hnext hk htype
  rcases isMessageType_cases htype with ⟨rest, rfl, hrest⟩ | hfull
  · refine yields_next_bind rfl (lexes_dot (rest ++ us) ws) fun r hr _ _ => ?_
    refine sat_text_bind ?_
    rw [if_neg (by simp), if_pos (.inr rfl)]
    exact (hr.putBack rfl (lexes_dot (rest ++ us) ws).bare).bind fun _ r' hr' => hname r' hr'
  · obtain ⟨first, rest, rfl, hfirst, hrest⟩ := isFullIdent_cases hfull
    have hl := lexes_ident .plain loose hfirst (isDots_head us hrest hus) ws
    refine yields_next_bind rfl hl fun r hr hrest' htext => ?_
    refine sat_text_bind ?_
    rw [htext]
    by_cases hmem : first ∈ scalarTypes
    · obtain rfl : rest = [] := by
        simpa [startsWith_cons.2 hmem] using hscalar
      rw [if_pos ⟨rfl, hmem⟩]
      exact sat_position_bind (sat_pure ⟨_, hrest', by simp, rfl⟩)
    · rw [if_neg (fun h => hmem h.2), if_pos (.inl rfl)]
      exact (hr.putBack rfl hl.bare).bind fun _ r' hr' => hname r' hr'

theorem optionName_glued (h : isOptionName ts = true) :
    Yields optionName (glue loose (ts ++ us) ws) fun a ws' =>
      a = String.join ts ∧ ws' = glue loose us ws := by
  rcases isOptionName_cases h with hfull | ⟨inner, rest, rfl, hinner, hrest⟩
  · obtain ⟨first, rest, rfl, hfirst, hrest⟩ := isFullIdent_cases hfull
    have hl := lexes_ident .plain loose hfirst (isDots_head us hrest hus) ws
    refine yields_next_bind rfl hl fun r _ hr htext => ?_
    refine sat_text_bind ?_
    rw [htext, String.join_cons]
    exact dotted_glued us hus hnext hk first hrest _ hr
  · rw [List.append_assoc, List.cons_append, List.cons_append]
    have hopen : Lexes .plain (glue loose ("(" :: (inner ++ ")" :: (rest ++ us))) ws)
        (.delimiter .leftParen) "(" (glue loose (inner ++ ")" :: (rest ++ us)) ws) :=
      lexes_delimiter loose (Delimiter.spells_symbol (d := .leftParen) nofun) rfl rfl _ ws
    have hclose : Lexes .plain (glue loose (")" :: (rest ++ us)) ws) (.delimiter .rightParen) ")"
        (glue loose (rest ++ us) ws) :=
      lexes_delimiter loose (Delimiter.spells_symbol (d := .rightParen) nofun) rfl rfl _ ws
    refine yields_next_bind rfl hopen fun r _ hr _ => ?_
    have hhead : ∀ x ∈ (String.join (")" :: (rest ++ us))).toList.head?,
        Text.isIdentChar x = false := by
      intro x hx
      have hparen : ")".toList = [')'] := rfl
      rw [String.join_cons, String.toList_append, hparen] at hx
      obtain rfl : ')' = x := by simpa using hx
      decide
    refine (fullIdent_glued _ hhead ⟨_, _, hclose⟩ nofun hinner _ hr).bind ?_
    rintro ⟨name, start⟩ r₁ ⟨_, hr₁, rfl, rfl⟩
    refine (expectDelimiter_yields hclose _ r₁ hr₁).bind ?_
    rintro _ r₂ ⟨_, hr₂, rfl⟩
    refine (dotted_glued us hus hnext hk _ hrest r₂ hr₂).mono ?_
    rintro a r₃ ⟨_, hr₃, rfl, rfl⟩
    refine ⟨_, hr₃, ?_, rfl⟩
    rw [List.cons_append, String.join_cons, String.join_append, String.join_cons,
      String.append_assoc, String.append_assoc]

end

/-! ## Names in front of other words -/

theorem fullIdent_yields (h : isFullIdent ts = true) (hws : Next kind ws)
    (hk : kind ≠ .delimiter .dot) : Yields fullIdent (glue loose ts ws) fun a ws' =>
      a.1 = String.join ts ∧ ws' = ws :=
  (fullIdent_glued [] (by simp) (hws.glue_nil loose) hk h).unglue

theorem messageType_yields (h : isMessageType ts = true) (hws : Next kind ws)
    (hk : kind ≠ .delimiter .dot) : Yields messageType (glue loose ts ws) fun a ws' =>
      a.1 = String.join ts ∧ ws' = ws :=
  (messageType_glued [] (by simp) (hws.glue_nil loose) hk h).unglue

theorem fieldType_yields (h : isFieldType ts = true) (hws : Next kind ws)
    (hk : kind ≠ .delimiter .dot) : Yields fieldType (glue loose ts ws) fun a ws' =>
      a.1 = String.join ts ∧ ws' = ws :=
  (fieldType_glued [] (by simp) (hws.glue_nil loose) hk h).unglue

theorem optionName_yields (h : isOptionName ts = true) (hws : Next kind ws)
    (hk : kind ≠ .delimiter .dot) : Yields optionName (glue loose ts ws) fun a ws' =>
      a = String.join ts ∧ ws' = ws :=
  (optionName_glued [] (by simp) (hws.glue_nil loose) hk h).unglue

end Grammar

end ProtoIdl
