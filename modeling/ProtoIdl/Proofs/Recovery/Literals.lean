import ProtoIdl.Proofs.Tree.Literal
/-!
# Literals are read back

Every literal whose parts are spelled as the grammar has it is read from some text: from its words
with blanks between them, where a comma stands behind every item of a list and a sign in front of a
signed number is a word of its own. Behind an entry the comma stands or not, as the literal says.
Main statement: `Grammar.literal_yields`.
-/
namespace ProtoIdl

open Spelling

/-! ## The words of a literal -/

/-- The words of a value: one, or two if it is a number with two signs. -/
def valueWords (text : String) : List String :=
  if isConstant text then [text]
  else [String.ofList (text.toList.take 1), String.ofList (text.toList.drop 1)]

theorem join_valueWords (text : String) : String.join (valueWords text) = text := by
  unfold valueWords
  split
  · simp
  · rw [String.join_cons, String.join_cons, String.join_nil, String.append_empty,
      ← String.ofList_append, List.take_append_drop, String.ofList_toList]

/-- The tokens of a value. -/
def valueTokens (text : String) : List String :=
  if isConstant text then constantTokens text else valueWords text

theorem join_valueTokens (text : String) : String.join (valueTokens text) = text := by
  unfold valueTokens constantTokens
  split
  · split
    · simp
    · exact join_nameTokens text
  · exact join_valueWords text

/-- The words of items, with a comma behind each. -/
def itemWords (items : List String) : List String := items.flatMap fun item => [item, ","]

/-- The comma behind an entry, if there is one. -/
def commaWords (comma : Bool) : List String := if comma then [","] else []

mutual
/-- The words of a literal. -/
def Literal.words : Literal → List String
  | .constant text => valueWords text
  | .list items => "[" :: itemWords items ++ ["]"]
  | .group entries => "\x7b" :: entries.words ++ ["\x7d"]

/-- The words of entries, with the commas that stand behind them. -/
def Entries.words : Entries → List String
  | .nil => []
  | .cons name value comma rest =>
    name :: ":" :: value.words ++ commaWords comma ++ rest.words
end

mutual
/-- How deep groups are nested in a literal. -/
def Literal.depth : Literal → Nat
  | .constant _ | .list _ => 0
  | .group entries => entries.depth + 1

/-- How deep groups are nested in the values of entries. -/
def Entries.depth : Entries → Nat
  | .nil => 0
  | .cons _ value _ rest => max value.depth rest.depth
end

/-- Entries behind others. -/
def Entries.append : Entries → Entries → Entries
  | .nil, fs => fs
  | .cons name value comma es, fs => .cons name value comma (es.append fs)

@[simp]
theorem Entries.append_nil : (es : Entries) → es.append .nil = es
  | .nil => rfl
  | .cons name value comma rest => by rw [Entries.append, append_nil rest]

/-- An entry that is put behind others stands in front of what comes next. -/
theorem Entries.push_append (es : Entries) (name : String) (value : Literal) (comma : Bool)
    (fs : Entries) :
    (es.push name value comma).append fs = es.append (.cons name value comma fs) := by
  match es with
  | .nil => rfl
  | .cons n v c rest => rw [Entries.push, Entries.append, Entries.append, push_append rest]

/-- Whether a text is the name of an entry of a validator. -/
def Spelling.isKey (name : String) : Bool := isIdent name.toList

theorem Spelling.areWords_isKey : AreWords isKey := fun w hw => by
  refine ⟨fun hnil => ?_, List.all_eq_true.2 fun x hx => ?_⟩
  · rw [isKey, hnil] at hw
    cases hw
  · exact isNumberTail_of_isIdentChar (List.all_eq_true.1 (all_of_isIdent hw) x hx)

/-! ## What values stand in front of -/

variable {ws : List String}

theorem head_symbol {d : Delimiter} (hd : d ≠ .slash) (loose : Bool) (us ws : List String) :
    ∀ x ∈ (front (glue loose (d.symbol :: us) ws)).head?, Delimiter.ofChar? x = some d := by
  obtain ⟨x, hw, hx, -⟩ := Delimiter.spells_symbol hd
  obtain ⟨tail, hf, -⟩ := front_glue loose (Delimiter.spells_symbol hd).shows us ws
  rw [hf, hw]
  rintro _ ⟨⟩
  exact hx

theorem isQuote_of_delimiter {x : Char} {d : Delimiter} (hx : Delimiter.ofChar? x = some d)
    (hd : d ≠ .quote) : Scan.isQuote x = false := by
  rw [← Bool.not_eq_true]
  intro hq
  simp only [Scan.isQuote, Bool.or_eq_true, beq_iff_eq] at hq
  rcases hq with rfl | rfl <;> exact hd (Option.some.inj hx).symm

theorem halts_glued {d : Delimiter} (hd : d ∉ [Delimiter.slash, .dot, .quote]) (loose : Bool)
    (us ws : List String) : Halts (glue loose (d.symbol :: us) ws) := by
  simp only [List.mem_cons, List.not_mem_nil, or_false, not_or] at hd
  have hl : Lexes .plain (glue loose (d.symbol :: us) ws) (.delimiter d) d.symbol
      (glue loose us ws) := lexes_delimiter loose (Delimiter.spells_symbol hd.1) rfl rfl us ws
  exact ⟨⟨_, ⟨_, _, hl⟩, fun h => hd.2.1 (Kind.delimiter.inj h)⟩, fun x hx =>
    isQuote_of_delimiter (head_symbol hd.1 loose us ws x hx) hd.2.2⟩

theorem halts_symbol {d : Delimiter} (hd : d ∉ [Delimiter.slash, .dot, .quote]) (ws : List String) :
    Halts (d.symbol :: ws) := halts_glued hd true [] ws

/-- A word ends a value whatever stands in front of it. -/
theorem halts_word {w : String} {ts : List String} (loose : Bool) (hw : isIdent w.toList = true)
    (hts : ∀ x ∈ (String.join ts).toList.head?, Text.isIdentChar x = false) (ws : List String) :
    Halts (glue loose (w :: ts) ws) := by
  have hl : Lexes .plain (glue loose (w :: ts) ws) .ident w (glue loose ts ws) :=
    lexes_ident .plain loose hw hts ws
  refine ⟨⟨_, ⟨_, _, hl⟩, nofun⟩, ?_⟩
  obtain ⟨tail, hf, -⟩ := front_glue loose (shows_ident hw) ts ws
  rw [hf]
  cases h : w.toList with
  | nil =>
    rw [h] at hw
    cases hw
  | cons x more =>
    rw [h] at hw
    rintro _ ⟨⟩
    rw [← Bool.not_eq_true]
    intro hq
    simp only [Scan.isQuote, Bool.or_eq_true, beq_iff_eq] at hq
    have hx := (Bool.and_eq_true_iff.1 hw).1
    rcases hq with rfl | rfl <;> exact absurd hx (by decide)

theorem halts_ident {w : String} (hw : isIdent w.toList = true) (ws : List String) :
    Halts (w :: ws) := by
  have h : Halts (glue true [w] ws) := halts_word true hw (by simp) ws
  exact h

namespace Grammar

open Reading

/-! ## Values and lists -/

section
variable {loose : Bool} {us : List String} (curly : Bool)
  (hus : ∀ x ∈ (String.join us).toList.head?, Scan.isNumberTail x = false)
include hus

/-- A sign and a number that has a sign of its own are read as one value. -/
theorem signed_glued {x : Char} {n : List Char} (hx : isSign x = true) (hn : isNumber n = true)
    (hsign : n.head?.any isSign = true) (ws : List String) :
    Yields (constant? curly) (glue loose (String.ofList [x] :: String.ofList n :: us) ws) fun a ws' =>
      a.1 = some (String.ofList [x] ++ String.ofList n) ∧ ws' = glue loose us ws := by
  obtain ⟨kind, hk, hnumber⟩ : ∃ kind ∈ [Kind.intLit, .floatLit],
      Lexes .literal (glue loose (String.ofList n :: us) ws) kind (String.ofList n)
        (glue loose us ws) :=
    lexes_number loose rfl (by rwa [String.toList_ofList]) hus ws
  obtain ⟨d, hd, hchar⟩ : ∃ d ∈ [Delimiter.minus, .plus], Delimiter.ofChar? x = some d := by
    rcases Scan.isSign_cases hx with rfl | rfl
    · exact ⟨.plus, by simp, rfl⟩
    · exact ⟨.minus, by simp, rfl⟩
  have hnext : ∀ y ∈ (String.join (String.ofList n :: us)).toList.head?, isSign y = true := by
    obtain ⟨y, more, rfl⟩ : ∃ y more, n = y :: more := by
      cases n with
      | nil => cases hsign
      | cons y more => exact ⟨y, more, rfl⟩
    rw [String.join_cons, String.toList_append, String.toList_ofList]
    rintro _ ⟨⟩
    exact hsign
  have hl : Lexes .literal (glue loose (String.ofList [x] :: String.ofList n :: us) ws)
      (.delimiter d) (String.ofList [x]) (glue loose (String.ofList n :: us) ws) :=
    lexes_sign loose rfl String.toList_ofList hx hchar hnext ws
  refine yields_next_bind rfl hl fun r _ hr hfirst => sat_position_bind ?_
  simp only [List.mem_cons, List.not_mem_nil, or_false] at hd hk
  rcases hd with rfl | rfl
  all_goals
    refine sat_text_bind (yields_next_bind
      (Q := fun (a : Option String × Position) ws' =>
        a.1 = some (String.ofList [x] ++ String.ofList n) ∧ ws' = glue loose us ws) rfl hnumber
      (fun r' _ hr' hdigits => ?_) _ hr)
    rcases hk with rfl | rfl <;>
      exact sat_text_bind (sat_pure ⟨_, hr', by rw [hfirst, hdigits], rfl⟩)

/-- A value is read from its tokens, also one with two signs. -/
theorem value_glued {text : String} (h : isValue text = true) (hws : Halts (glue loose us ws)) :
    Yields (constant? curly) (glue loose (valueTokens text ++ us) ws) fun a ws' =>
      a.1 = some text ∧ ws' = glue loose us ws := by
  unfold valueTokens
  by_cases hconst : isConstant text = true
  · rw [if_pos hconst]
    exact constant_glued curly hus hws hconst
  · rw [if_neg hconst, valueWords, if_neg hconst]
    have hsigned : isTwiceSigned text.toList = true := by simpa [isValue, hconst] using h
    cases htext : text.toList with
    | nil =>
      rw [htext] at hsigned
      cases hsigned
    | cons x n =>
      rw [htext] at hsigned
      simp only [isTwiceSigned, Bool.and_eq_true] at hsigned
      have happ : String.ofList [x] ++ String.ofList n = text := by
        rw [← String.ofList_append, List.singleton_append, ← htext, String.ofList_toList]
      rw [← happ]
      exact signed_glued curly hus hsigned.1.1 hsigned.2 hsigned.1.2 ws

end

/-- A value is read from its words. -/
theorem value_yields {text : String} (h : isValue text = true) (hws : Halts ws) :
    Yields (constant? true) (valueWords text ++ ws) fun a ws' => a.1 = some text ∧ ws' = ws := by
  have hglued (loose : Bool) : Yields (constant? true) (glue loose (valueTokens text) ws)
      fun a ws' => a.1 = some text ∧ ws' = ws := by
    have hempty : ∀ x ∈ (String.join []).toList.head?, Scan.isNumberTail x = false := by simp
    exact (value_glued true hempty h (hws.glue_nil loose)).unglue
  unfold valueWords
  by_cases hconst : isConstant text = true
  · have htokens := hglued false
    rw [if_pos hconst]
    rwa [glue, if_neg Bool.false_ne_true, join_valueTokens] at htokens
  · have htokens := hglued true
    rwa [valueTokens, if_neg hconst, valueWords] at htokens

/-- No square bracket is seen in front of a value. -/
theorem value_peek {text : String} (h : isValue text = true) (ws : List String) :
    Yields (peek .plain) (valueWords text ++ ws) fun k ws' =>
      k ≠ .delimiter .leftBracket ∧ ws' = valueWords text ++ ws := by
  obtain ⟨x, rest, htext, hx⟩ : ∃ x rest, text.toList = x :: rest ∧
      (Scan.isQuote x || isWordChar x) = true := by
    rcases isValue_cases h with hstr | ⟨hne, hall⟩
    · obtain ⟨q, rest, htext, hq⟩ := isQuote_of_isStrLit hstr
      exact ⟨q, rest, htext, by rw [hq]; rfl⟩
    · obtain ⟨x, rest, htext⟩ := List.exists_cons_of_ne_nil hne
      rw [htext] at hall
      exact ⟨x, rest, htext, by rw [(Bool.and_eq_true_iff.1 hall).1, Bool.or_true]⟩
  obtain ⟨w, more, hwords, hw⟩ : ∃ w more, valueWords text = w :: more ∧ ∃ v, w.toList = x :: v := by
    unfold valueWords
    split
    · exact ⟨text, [], rfl, rest, htext⟩
    · exact ⟨_, _, rfl, [], by rw [htext, String.toList_ofList]; rfl⟩
  obtain ⟨v, hv⟩ := hw
  have hshows : Shows w :=
    shows_of_class (p := fun x => Scan.isQuote x || isWordChar x) hv hx (by decide) (by decide)
  rw [hwords]
  refine peek_yields_ne hshows ?_ (more ++ ws)
  rw [hv]
  rintro _ ⟨⟩ hchar
  obtain rfl : x = '[' := by
    revert hchar
    fun_cases Delimiter.ofChar? x <;> simp
  exact absurd hx (by decide)

theorem itemWords_cons (item : String) (items : List String) (ws : List String) :
    itemWords (item :: items) ++ ws = item :: "," :: (itemWords items ++ ws) := rfl

theorem stringListRound_close (done ws : List String) :
    Yields (stringListRound done) ("]" :: ws) fun a ws' => a = .done done ∧ ws' = ws := by
  have hclose : Lexes .plain ("]" :: ws) (.delimiter .rightBracket) "]" ws :=
    lexes_symbol (d := .rightBracket) nofun rfl rfl ws
  refine (peek_yields rfl hclose).bind ?_
  rintro _ _ ⟨rfl, rfl⟩
  rw [if_pos rfl]
  exact yields_next_bind rfl hclose fun r _ hr _ => sat_pure ⟨ws, hr, rfl, rfl⟩

theorem stringListRound_item (done : List String) {item : String} {items : List String}
    (h : isStrLit item.toList = true) (ws : List String) :
    Yields (stringListRound done) (itemWords (item :: items) ++ "]" :: ws) fun a ws' =>
      a = .again (done ++ [item]) ∧ ws' = itemWords items ++ "]" :: ws := by
  rw [itemWords_cons]
  obtain ⟨q, more, hitem, hq⟩ := isQuote_of_isStrLit h
  have hcomma : Lexes .plain ("," :: (itemWords items ++ "]" :: ws)) (.delimiter .comma) ","
      (itemWords items ++ "]" :: ws) :=
    lexes_symbol (d := .comma) nofun rfl rfl _
  refine (peek_yields_ne (d := .rightBracket) (shows_string h) ?_ _).bind ?_
  · rw [hitem]
    rintro _ ⟨⟩ hchar
    simp only [Scan.isQuote, Bool.or_eq_true, beq_iff_eq] at hq
    rcases hq with rfl | rfl <;> cases hchar
  rintro k _ ⟨hk, rfl⟩
  rw [if_neg hk]
  have hstop : ∀ x ∈ (front ("," :: (itemWords items ++ "]" :: ws))).head?,
      Scan.isQuote x = false := (Punctuated.comma _).head
  refine (expect_yields rfl (lexes_string .string rfl h hstop) _).bind ?_
  rintro _ _ ⟨rfl, rfl⟩
  refine (peek_yields rfl hcomma).bind ?_
  rintro _ _ ⟨rfl, rfl⟩
  rw [if_pos rfl]
  exact yields_next_bind rfl hcomma fun r _ hr _ => sat_pure ⟨_, hr, rfl, rfl⟩

/-- The items of a list are read; behind each there is a comma. -/
theorem stringList_yields {items : List String}
    (h : items.all (fun item => isStrLit item.toList) = true) (ws : List String) :
    Yields stringList ("[" :: (itemWords items ++ "]" :: ws)) fun a ws' => a = items ∧ ws' = ws := by
  refine (symbol_yields (d := .leftBracket) nofun _ _).bind ?_
  rintro _ _ rfl
  refine yields_items (P := fun item => isStrLit item.toList = true)
    (fun items => itemWords items ++ "]" :: ws)
    (fun done item items hitem => stringListRound_item done hitem ws)
    (fun done => stringListRound_close done ws) (fun item items hitem => ?_) [] items
    (List.all_eq_true.1 h)
  rw [itemWords_cons]
  exact Nat.lt_trans (ink_comma _) ((shows_string hitem).ink_pos _)

end Grammar

/-! ## Groups -/

open Reading

/-- The group that a value is, if it is one, is read from its words. -/
def Literal.Nests (nested : Reading Entries) : Literal → Prop
  | .constant _ | .list _ => True
  | .group es => ∀ ws, Yields nested ("\x7b" :: (es.words ++ "\x7d" :: ws)) fun a ws' =>
      a = es ∧ ws' = ws

/-- So are all groups that are values of entries. -/
def Entries.Nests (nested : Reading Entries) : Entries → Prop
  | .nil => True
  | .cons _ value _ rest => value.Nests nested ∧ rest.Nests nested

theorem Literal.words_group (es : Entries) (tail : List String) :
    (Literal.group es).words ++ tail = "\x7b" :: (es.words ++ "\x7d" :: tail) := by
  simp [Literal.words]

theorem Entries.words_cons (name : String) (value : Literal) (comma : Bool) (rest : Entries)
    (tail : List String) : (Entries.cons name value comma rest).words ++ tail =
      name :: ":" :: (value.words ++ (commaWords comma ++ (rest.words ++ tail))) := by
  simp [Entries.words]

/-- A value stands in front of a comma, of a name or of a bracket. -/
theorem Entries.halts_behind (comma : Bool) {rest : Entries}
    (h : rest.areWellFormed isKey = true) (ws : List String) :
    Halts (commaWords comma ++ (rest.words ++ "\x7d" :: ws)) := by
  cases comma with
  | true => exact halts_symbol (d := .comma) (by decide) _
  | false =>
    cases rest with
    | nil => exact halts_symbol (d := .rightBrace) (by decide) ws
    | cons name value comma' rest' =>
      simp only [areWellFormed, Bool.and_eq_true] at h
      rw [words_cons]
      exact halts_ident h.1.1 _

namespace Grammar

section
variable {nested : Reading Entries}

/-- In front of a group there is no constant. -/
theorem curly_yields (es : Entries) (ws : List String) :
    Yields (constant? true) ((Literal.group es).words ++ ws) fun a ws' =>
      a.1 = none ∧ ws' = (Literal.group es).words ++ ws := by
  rw [Literal.words_group]
  have hl := lexes_leftBrace .literal true [] (es.words ++ "\x7d" :: ws)
  refine yields_next_bind rfl hl fun r hr _ _ => sat_position_bind ?_
  exact (hr.putBack rfl hl.bare).bind fun _ r' hr' => sat_pure ⟨_, hr', rfl, rfl⟩

theorem literalValue_yields {l : Literal} (h : l.isWellFormed isKey = true) (hn : l.Nests nested)
    (hws : Halts ws) :
    Yields (literalValue nested) (l.words ++ ws) fun a ws' => a = l ∧ ws' = ws := by
  cases l with
  | constant text =>
    refine (value_peek h ws).bind ?_
    rintro k _ ⟨hk, rfl⟩
    rw [if_neg hk]
    refine (value_yields h hws).bind ?_
    rintro ⟨_, _⟩ _ ⟨rfl, rfl⟩
    exact yields_pure ⟨rfl, rfl⟩
  | list items =>
    have hwords : (Literal.list items).words ++ ws = "[" :: (itemWords items ++ "]" :: ws) := by
      simp [Literal.words]
    have hopen : Lexes .plain ("[" :: (itemWords items ++ "]" :: ws)) (.delimiter .leftBracket) "["
        (itemWords items ++ "]" :: ws) := lexes_symbol (d := .leftBracket) nofun rfl rfl _
    rw [hwords]
    refine (peek_yields rfl hopen).bind ?_
    rintro _ _ ⟨rfl, rfl⟩
    rw [if_pos rfl]
    refine (stringList_yields h ws).bind ?_
    rintro _ _ ⟨rfl, rfl⟩
    exact yields_pure ⟨rfl, rfl⟩
  | group es =>
    rw [Literal.words_group]
    have hopen : Lexes .plain ("\x7b" :: (es.words ++ "\x7d" :: ws)) (.delimiter .leftBrace) "\x7b"
        (es.words ++ "\x7d" :: ws) := lexes_leftBrace .plain true [] _
    refine (peek_yields rfl hopen).bind ?_
    rintro _ _ ⟨rfl, rfl⟩
    rw [if_neg (by decide), ← Literal.words_group]
    refine (curly_yields es ws).bind ?_
    rintro ⟨_, _⟩ _ ⟨rfl, rfl⟩
    rw [Literal.words_group]
    refine (hn ws).bind ?_
    rintro _ _ ⟨rfl, rfl⟩
    exact yields_pure ⟨rfl, rfl⟩

/-- An entry is read; the round ends the group if no other entry follows. -/
theorem entriesRound_yields (done : Entries) {name : String} {value : Literal} {comma : Bool}
    {rest : Entries} (h : (Entries.cons name value comma rest).areWellFormed isKey = true)
    (hn : value.Nests nested) :
    Yields (entriesRound nested done) ((Entries.cons name value comma rest).words ++ "\x7d" :: ws)
      (Round.Meets
        (fun s ws' => rest.isEmpty = false ∧ s = done.push name value comma ∧
          ws' = rest.words ++ "\x7d" :: ws)
        fun a ws' => rest = .nil ∧ a = done.push name value comma ∧ ws' = ws) := by
  simp only [Entries.areWellFormed, Bool.and_eq_true] at h
  obtain ⟨⟨hname, hvalue⟩, hrest⟩ := h
  rw [Entries.words_cons]
  refine (ident_yields hname _ _).bind ?_
  rintro _ _ ⟨rfl, rfl⟩
  refine (symbol_yields (d := .colon) nofun _ _).bind ?_
  rintro _ _ rfl
  refine (literalValue_yields hvalue hn (Entries.halts_behind comma hrest ws)).bind ?_
  rintro _ _ ⟨rfl, rfl⟩
  have hclose : Lexes .plain ("\x7d" :: ws) (.delimiter .rightBrace) "\x7d" ws :=
    lexes_symbol (d := .rightBrace) nofun rfl rfl ws
  cases comma with
  | true =>
    have hcomma : Lexes .plain ("," :: (rest.words ++ "\x7d" :: ws)) (.delimiter .comma) ","
        (rest.words ++ "\x7d" :: ws) := lexes_symbol (d := .comma) nofun rfl rfl _
    refine yields_next_bind rfl hcomma fun r _ hr _ => ?_
    cases rest with
    | nil =>
      refine ((peek_yields rfl hclose).bind ?_) _ hr
      rintro _ _ ⟨rfl, rfl⟩
      rw [if_pos rfl]
      exact yields_next_bind rfl hclose fun r' _ hr' _ => sat_pure ⟨ws, hr', rfl, rfl, rfl⟩
    | cons name' value' comma' rest' =>
      simp only [Entries.areWellFormed, Bool.and_eq_true] at hrest
      rw [Entries.words_cons] at hr ⊢
      refine ((peek_yields rfl (lexes_identifier .plain hrest.1.1 _)).bind ?_) _ hr
      rintro _ _ ⟨rfl, rfl⟩
      rw [if_neg nofun]
      exact yields_pure ⟨rfl, rfl, rfl⟩
  | false =>
    cases rest with
    | nil => exact yields_next_bind rfl hclose fun r _ hr _ => sat_pure ⟨ws, hr, rfl, rfl, rfl⟩
    | cons name' value' comma' rest' =>
      simp only [Entries.areWellFormed, Bool.and_eq_true] at hrest
      rw [Entries.words_cons]
      have hl := lexes_identifier .plain hrest.1.1 (":" :: (value'.words ++ (commaWords comma' ++
        (rest'.words ++ "\x7d" :: ws))))
      exact yields_next_bind rfl hl fun r hr _ _ => (hr.putBack rfl hl.bare).bind
        fun _ r' hr' => sat_pure ⟨_, hr', rfl, rfl, rfl⟩

/-- A name shows, so that every entry takes characters. -/
theorem Entries.ink_lt {name : String} {value : Literal} {comma : Bool} {rest : Entries}
    (h : isIdent name.toList = true) (ws : List String) :
    ink (rest.words ++ ws) < ink ((Entries.cons name value comma rest).words ++ ws) := by
  have hlt := (shows_ident h).ink_pos (":" :: (value.words ++ (commaWords comma ++ (rest.words ++ ws))))
  rw [Entries.words_cons]
  simp only [ink_cons, ink_append] at hlt ⊢
  omega

/-- The entries of a group are read. -/
theorem entriesWith_yields {es : Entries} (h : es.areWellFormed isKey = true)
    (hne : es.isEmpty = false) (hn : es.Nests nested) (ws : List String) :
    Yields (entriesWith nested) ("\x7b" :: (es.words ++ "\x7d" :: ws)) fun a ws' =>
      a = es ∧ ws' = ws := by
  refine (symbol_yields (d := .leftBrace) nofun _ _).bind ?_
  rintro _ _ rfl
  refine yields_repeatFrom (I := fun done ws' => ∃ rest : Entries, rest.isEmpty = false ∧
    rest.areWellFormed isKey = true ∧ rest.Nests nested ∧ ws' = rest.words ++ "\x7d" :: ws ∧
      done.append rest = es) ⟨es, hne, h, hn, rfl, rfl⟩ ?_
  rintro done _ ⟨rest, hfirst, hkeys, hnests, rfl, rfl⟩
  cases rest with
  | nil => cases hfirst
  | cons name value comma rest =>
    refine (entriesRound_yields done hkeys hnests.1).mono ?_
    simp only [Entries.areWellFormed, Bool.and_eq_true] at hkeys
    rintro (s | a) ws' hround
    · obtain ⟨hnext, rfl, rfl⟩ := hround
      exact ⟨⟨rest, hnext, hkeys.2, hnests.2, rfl, Entries.push_append _ _ _ _ _⟩,
        Entries.ink_lt hkeys.1.1 _⟩
    · obtain ⟨rfl, rfl, rfl⟩ := hround
      refine ⟨?_, rfl⟩
      rw [← Entries.push_append, Entries.append_nil]

end

end Grammar

/-! ## Nesting -/

mutual
/-- Groups are read if they are not nested too deep. -/
theorem Literal.nests : (l : Literal) → l.isWellFormed isKey = true → l.isFilled = true →
    {depth : Nat} → l.depth ≤ depth → l.Nests (Grammar.entriesAtMost depth)
  | .constant _, _, _, _, _ => trivial
  | .list _, _, _, _, _ => trivial
  | .group es, h, hf, depth, hd => by
    rw [Literal.isFilled, Bool.and_eq_true, Bool.not_eq_true'] at hf
    cases depth with
    | zero => exact absurd hd (Nat.not_succ_le_zero _)
    | succ depth =>
      have hnests := Entries.nests es h hf.2 (Nat.le_of_succ_le_succ hd)
      exact Grammar.entriesWith_yields h hf.1 hnests

theorem Entries.nests : (es : Entries) → es.areWellFormed isKey = true → es.areFilled = true →
    {depth : Nat} → es.depth ≤ depth → es.Nests (Grammar.entriesAtMost depth)
  | .nil, _, _, _, _ => trivial
  | .cons name value comma rest, h, hf, depth, hd => by
    simp only [Entries.areWellFormed, Bool.and_eq_true] at h
    rw [Entries.areFilled, Bool.and_eq_true] at hf
    simp only [Entries.depth] at hd
    exact ⟨Literal.nests value h.1.2 hf.1 (by omega), Entries.nests rest h.2 hf.2 (by omega)⟩
end

mutual
/-- Every group has its brackets, so that groups are not nested deeper than there are characters. -/
theorem Literal.depth_le_ink : (l : Literal) → l.depth ≤ ink l.words
  | .constant _ | .list _ => Nat.zero_le _
  | .group es => by
    have hes := Entries.depth_le_ink es
    have hbrace : "\x7b".toList.countP (fun x => !Scan.isBlank x) = 1 := by decide
    simp only [Literal.depth, Literal.words, List.cons_append, ink_cons, ink_append, hbrace]
    omega

theorem Entries.depth_le_ink : (es : Entries) → es.depth ≤ ink es.words
  | .nil => Nat.zero_le _
  | .cons name value comma rest => by
    have hvalue := Literal.depth_le_ink value
    have hrest := Entries.depth_le_ink rest
    simp only [Entries.depth, Entries.words, List.cons_append, ink_cons, ink_append]
    omega
end

/-- A literal is read from its words. -/
theorem Grammar.literal_yields {es : Entries} (h : (Literal.group es).isWellFormed isKey = true)
    (hf : (Literal.group es).isFilled = true) (ws : List String) :
    Yields literal ((Literal.group es).words ++ ws) fun a ws' => a = .group es ∧ ws' = ws := by
  intro r hr
  refine sat_get.bind ?_
  rintro _ r ⟨rfl, rfl⟩
  have hdepth : (Literal.group es).depth ≤ r.rounds := by
    have hink := hr.ink_lt
    have hle := Literal.depth_le_ink (.group es)
    rw [ink_append] at hink
    rw [Reader.rounds]
    omega
  rw [Literal.words_group] at hr
  refine ((Literal.nests (.group es) h hf hdepth ws).bind ?_) r hr
  rintro _ _ ⟨rfl, rfl⟩
  exact yields_pure ⟨rfl, rfl⟩

end ProtoIdl
