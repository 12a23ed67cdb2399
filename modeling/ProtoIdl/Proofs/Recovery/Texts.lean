import ProtoIdl.Proofs.Recovery.Endpoints
/-!
# Reading a text from its front

Where tokens stand as they do in a source, some right behind each other and some behind a blank, what
is left to be read is told as one text. `Reading.Reads x s P rest` says that on the text `s` the step
`x` succeeds, that `P` holds of its answer, and that `rest` is left. A blank in front changes nothing
(`Reading.Reads.behind_blank`). Names, numbers and strings end in front of a blank or a delimiter
(`Separates`).
-/
namespace ProtoIdl

open Spelling
open Scan (wordKind isNumberTail)

variable {w rest s t u : String} {mode : Mode} {kind : Kind}

@[simp]
theorem glue_rest (rest : String) : glue false [rest] [] = [rest] := by
  simp [glue]

@[simp]
theorem glue_pair (w rest : String) : glue false [w, rest] [] = [w ++ rest] := by
  simp [glue]

theorem glue_text (ts : List String) (rest : String) :
    glue false (ts ++ [rest]) [] = [String.join ts ++ rest] := by
  simp [glue]

theorem front_blank (s : String) : front [" " ++ s] = front [s] := by
  have hblank : Scan.isBlank ' ' = true := rfl
  simp [front, spaced, hblank]

/-! ## Where parts end -/

/-- No word and no number goes on in this text. -/
def Breaks (rest : String) : Prop := ∀ x ∈ rest.toList.head?, isNumberTail x = false

/-- Names, values and strings end in front of this text. -/
structure Separates (rest : String) : Prop where
  breaks : Breaks rest
  halts : Halts [rest]

theorem breaks_blank (s : String) : Breaks (" " ++ s) := by
  rw [Breaks, String.toList_append]
  rintro _ ⟨⟩
  decide

theorem breaks_symbol {d : Delimiter} (hd : d ∉ [Delimiter.slash, .dot]) (s : String) :
    Breaks (d.symbol ++ s) := by
  simpa [Breaks] using join_symbol_head hd [s]

theorem separates_blank (h : Halts [rest]) : Separates (" " ++ rest) where
  breaks := breaks_blank rest
  halts := h.of_front (front_blank rest).symm

theorem separates_symbol {d : Delimiter} (hd : d ∉ [Delimiter.slash, .dot, .quote]) (s : String) :
    Separates (d.symbol ++ s) where
  breaks := by
    simp only [List.mem_cons, List.not_mem_nil, or_false, not_or] at hd
    exact breaks_symbol (by simp [hd.1, hd.2.1]) s
  halts := by
    simpa using halts_glued hd false [s] []

theorem Breaks.join_head (h : Breaks rest) :
    ∀ x ∈ (String.join [rest]).toList.head?, isNumberTail x = false := by
  simpa [Breaks] using h

theorem Breaks.ident_head (h : Breaks rest) :
    ∀ x ∈ (String.join [rest]).toList.head?, Text.isIdentChar x = false :=
  fun x hx => (Bool.or_eq_false_iff.1 (h.join_head x hx)).1

theorem Separates.glue_halts (h : Separates rest) : Halts (glue false [rest] []) := by
  rw [glue_rest]
  exact h.halts

/-! ## Tokens -/

/-- The first of two glued texts is a token, and the second is left. -/
theorem Lexes.text (h : Lexes mode (glue false [w, rest] []) kind w (glue false [rest] [])) :
    Lexes mode [w ++ rest] kind w [rest] := by
  rwa [glue_pair, glue_rest] at h

theorem lexes_symbol_text {d : Delimiter} (hd : d ≠ .slash) (hn : mode.numbers = false)
    (hs : mode.strings = false) (rest : String) :
    Lexes mode [d.symbol ++ rest] (.delimiter d) d.symbol [rest] :=
  (lexes_delimiter false (Delimiter.spells_symbol hd) hn hs [rest] []).text

theorem lexes_word_text (mode : Mode) (hw : isIdent w.toList = true) (h : Breaks rest) :
    Lexes mode [w ++ rest] (wordKind mode w) w [rest] :=
  (lexes_ident mode false hw h.ident_head []).text

theorem lexes_keyword_text (k : Keyword) (h : Breaks rest) :
    Lexes .keyword [k.word ++ rest] (.keyword k) k.word [rest] := by
  have hl := lexes_word_text .keyword (isIdent_keyword k) h
  rwa [wordKind_keyword] at hl

/-- An integer with at most one sign. -/
theorem lexes_int_text (hn : mode.numbers = true) (hw : isIntLit (dropSign w.toList) = true)
    (h : Breaks rest) : Lexes mode [w ++ rest] .intLit w [rest] := by
  have hshows : Shows w := shows_number (by simp [isNumber, hw])
  refine Lexes.text (lexes_glue false hshows fun tail ht => Scan.takes_intLit hn hw fun x hx => ?_)
  exact (ht x hx).elim (Scan.solid_isNumberTail x) (h.join_head x)

theorem lexes_string_text (hs : mode.strings = true) (hw : isStrLit w.toList = true)
    (h : Separates rest) : Lexes mode [w ++ rest] .stringLit w [rest] :=
  (lexes_string_glued mode false hs hw h.glue_halts.head).text

/-- Behind a blank there is another token. -/
theorem Lexes.behind_blank {vs : List String} (h : Lexes mode [s] kind w vs) :
    Lexes mode [" " ++ s] kind w vs :=
  h.of_front (front_blank s).symm

theorem halts_word_text (hw : isIdent w.toList = true) (h : Breaks rest) : Halts [w ++ rest] := by
  simpa using halts_word false hw h.ident_head []

namespace Reading

variable {α β : Type} {x : Reading α} {P : α → Prop} {Q : β → Prop}

/-- On the text the step succeeds; its answer is as asked for, and `rest` is left. -/
def Reads (x : Reading α) (s : String) (P : α → Prop) (rest : String) : Prop :=
  Yields x [s] fun a ws' => P a ∧ ws' = [rest]

theorem Reads.bind {f : α → Reading β} (h : Reads x s P t) (hf : ∀ a, P a → Reads (f a) t Q u) :
    Reads (x >>= f) s Q u := by
  refine Yields.bind h ?_
  rintro a _ ⟨ha, rfl⟩
  exact hf a ha

theorem reads_pure {a : α} (h : P a) : Reads (pure a) s P s := yields_pure ⟨h, rfl⟩

theorem reads_position_bind {f : Position → Reading α} (h : ∀ p, Reads (f p) s P t) :
    Reads (position >>= f) s P t :=
  yields_position_bind h

/-- A blank in front is skipped with the token behind it. -/
theorem Reads.behind_blank (h : Reads x s P t) : Reads x (" " ++ s) P t :=
  fun r hr => h r (hr.of_front (front_blank s))

/-- What is read of glued tokens is read of their text. -/
theorem reads_of_glued {ts : List String}
    (h : Yields x (glue false (ts ++ [rest]) []) fun a ws' => P a ∧ ws' = glue false [rest] []) :
    Reads x (String.join ts ++ rest) P rest := by
  rwa [glue_text, glue_rest] at h

theorem reads_next_bind {f : Kind → Reading β} (hm : mode.comments = false)
    (hl : Lexes mode [s] kind w [t]) (hf : ∀ r : Reader, r.At [t] → r.token.text = w →
      Sat (f kind) r (fun a r' => ∃ ws', r'.At ws' ∧ Q a ∧ ws' = [u]) fun _ => False) :
    Reads (next mode >>= f) s Q u :=
  yields_next_bind hm hl fun _ _ hr htext => hf _ hr htext

theorem expect_reads (hm : mode.comments = false) (hl : Lexes mode [s] kind w [t])
    (expected : String) : Reads (expect mode kind expected) s (· = w) t :=
  expect_yields hm hl expected

theorem symbol_reads {d : Delimiter} (hd : d ≠ .slash) (expected rest : String) :
    Reads (expectDelimiter d expected) (d.symbol ++ rest) (fun _ => True) rest :=
  (expectDelimiter_yields (lexes_symbol_text hd rfl rfl rest) expected).mono fun _ _ h => ⟨trivial, h⟩

theorem keyword_reads (k : Keyword) (h : Breaks rest) :
    Reads (expectKeyword k) (k.word ++ rest) (fun _ => True) rest :=
  (expect_reads rfl (lexes_keyword_text k h) _).bind fun _ _ _ hr => position_sat.mono
    fun _ _ hp => ⟨_, hp.2 ▸ hr, trivial, rfl⟩

theorem ident_reads (hw : isIdent w.toList = true) (h : Breaks rest) (expected : String) :
    Reads (expectIdent expected) (w ++ rest) (· = w) rest :=
  expectIdent_yields (lexes_word_text .plain hw h) expected

section
variable {k : Keyword} {f : Option Position → Reading α}

theorem optionally_reads (hl : Lexes .keyword [s] (.keyword k) w [t])
    (hf : ∀ p, Reads (f (some p)) t P u) : Reads (optionally k f) s P u :=
  optionally_yields hl hf

theorem optionally_reads_none {vs : List String} (hl : Lexes .keyword [s] kind w vs)
    (hk : kind ≠ .keyword k) (hf : Reads (f none) s P u) : Reads (optionally k f) s P u :=
  optionally_yields_none hl hk hf

end

theorem accept_reads {d : Delimiter} (hl : Lexes .plain [s] (.delimiter d) w [t]) :
    Reads (accept d) s (· = true) t :=
  accept_yields hl

theorem accept_reads_false {d : Delimiter} {vs : List String} (hl : Lexes .plain [s] kind w vs)
    (hk : kind ≠ .delimiter d) : Reads (accept d) s (· = false) s :=
  accept_yields_false hl hk

theorem peek_reads {vs : List String} (hm : mode.comments = false)
    (hl : Lexes mode [s] kind w vs) : Reads (peek mode) s (· = kind) s :=
  peek_yields hm hl

end Reading

namespace Grammar

open Reading

/-! ## Names and values -/

section
variable (hrest : Separates rest)
include hrest

/-- A name is read from its text if it is read from its tokens. -/
theorem reads_of_name {α : Type} {x : Reading α} (text : α → String)
    (h : ∀ kind, Next kind (glue false [rest] []) → kind ≠ .delimiter .dot →
      Yields x (glue false (nameTokens w ++ [rest]) []) fun a ws' =>
        text a = String.join (nameTokens w) ∧ ws' = glue false [rest] []) :
    Reads x (w ++ rest) (text · = w) rest := by
  obtain ⟨kind, hnext, hk⟩ := hrest.glue_halts.next
  have hreads := reads_of_glued (h kind hnext hk)
  rwa [join_nameTokens] at hreads

theorem fullIdent_reads (hw : isFullIdent (nameTokens w) = true) :
    Reads fullIdent (w ++ rest) (·.1 = w) rest :=
  reads_of_name hrest Prod.fst fun _ hnext hk =>
    fullIdent_glued [rest] hrest.breaks.ident_head hnext hk hw

theorem messageType_reads (hw : isMessageType (nameTokens w) = true) :
    Reads messageType (w ++ rest) (·.1 = w) rest :=
  reads_of_name hrest Prod.fst fun _ hnext hk =>
    messageType_glued [rest] hrest.breaks.ident_head hnext hk hw

theorem fieldType_reads (hw : isFieldType (nameTokens w) = true) :
    Reads fieldType (w ++ rest) (·.1 = w) rest :=
  reads_of_name hrest Prod.fst fun _ hnext hk =>
    fieldType_glued [rest] hrest.breaks.ident_head hnext hk hw

theorem optionName_reads (hw : isOptionName (nameTokens w) = true) :
    Reads optionName (w ++ rest) (· = w) rest :=
  reads_of_name hrest id fun _ hnext hk =>
    optionName_glued [rest] hrest.breaks.ident_head hnext hk hw

theorem value_reads (curly : Bool) (hw : isValue w = true) :
    Reads (constant? curly) (w ++ rest) (·.1 = some w) rest := by
  have hreads := reads_of_glued (value_glued curly hrest.breaks.join_head hw hrest.glue_halts)
  rwa [join_valueTokens] at hreads

end

end Grammar

end ProtoIdl
