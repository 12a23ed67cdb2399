import ProtoIdl.Proofs.Grammar.Endpoints
import ProtoIdl.Proofs.Recovery.Elements
/-!
# Endpoints are read back

The text that is kept of an endpoint has its fields with a comma between each two and nothing else
between the tokens, so it is one word (`glue false`). A value stands in front of a comma or of a closing
bracket there (`BehindValue`), and neither goes on in a number, a name or a string. Main statement:
`Grammar.endpoint_yields`.
-/
namespace ProtoIdl

open Spelling
open Scan (isNumberTail)
open Description (Fields Value isFieldName)

variable {us ws : List String}

/-- How a word is cut into tokens does not matter. -/
theorem glue_congr {ts ts' : List String} (h : String.join ts = String.join ts') (ws : List String) :
    glue false ts ws = glue false ts' ws := by
  rw [glue, glue, if_neg Bool.false_ne_true, if_neg Bool.false_ne_true, h]

/-! ## What stands behind a value -/

theorem isNumberTail_of_delimiter {x : Char} {d : Delimiter} (hx : Delimiter.ofChar? x = some d)
    (hd : d ≠ .dot) : isNumberTail x = false := by
  unfold Delimiter.ofChar? at hx
  split at hx
  all_goals cases hx
  all_goals first | rfl | exact absurd rfl hd

/-- A delimiter in front of other tokens ends a name. -/
theorem join_symbol_head {d : Delimiter} (hd : d ∉ [Delimiter.slash, .dot]) (us : List String) :
    ∀ x ∈ (String.join (d.symbol :: us)).toList.head?, isNumberTail x = false := by
  simp only [List.mem_cons, List.not_mem_nil, or_false, not_or] at hd
  obtain ⟨x, hw, hx, -⟩ := Delimiter.spells_symbol hd.1
  rw [String.join_cons, String.toList_append, hw]
  rintro _ ⟨⟩
  exact isNumberTail_of_delimiter hx hd.2

/-- What stands behind the value of a field. -/
inductive BehindValue : List String → Prop
  | comma (us : List String) : BehindValue ("," :: us)
  | brace (us : List String) : BehindValue ("\x7d" :: us)

/-- A number or a name does not go on. -/
theorem BehindValue.head (h : BehindValue us) :
    ∀ x ∈ (String.join us).toList.head?, isNumberTail x = false := by
  cases h with
  | comma rest => exact join_symbol_head (d := .comma) (by decide) rest
  | brace rest => exact join_symbol_head (d := .rightBrace) (by decide) rest

/-- Neither does a dotted name or a string. -/
theorem BehindValue.halts (h : BehindValue us) (ws : List String) : Halts (glue false us ws) := by
  cases h with
  | comma rest => exact halts_glued (d := .comma) (by decide) false rest ws
  | brace rest => exact halts_glued (d := .rightBrace) (by decide) false rest ws

/-! ## Fields -/

namespace Description

mutual
/-- The group that a value is, if it is one, is read from its tokens. -/
def Value.Nests (nested : Reading Endpoint) : Value → Prop
  | .constant _ => True
  | .group fields _ => ∀ us ws, Reading.Yields nested
      (glue false ("\x7b" :: (fields.entries.words ++ "\x7d" :: us)) ws) fun e ws' =>
        e.erase = { fields := fields.kept } ∧ ws' = glue false us ws

/-- So are all groups that are values of fields. -/
def Fields.Nests (nested : Reading Endpoint) : Fields → Prop
  | .nil => True
  | .cons _ value rest => value.Nests nested ∧ rest.Nests nested
end

theorem Fields.words_cons (name : String) (value : Value) (rest : Fields) (us : List String) :
    (Fields.cons name value rest).entries.words ++ us =
      name :: ":" :: (value.literal.words ++ (commaWords (!rest.isEmpty) ++
        (rest.entries.words ++ us))) := Entries.words_cons name value.literal _ rest.entries us

/-- Behind a value there is a comma, or the bracket at the end of the fields. -/
theorem Fields.behindValue (rest : Fields) (us : List String) :
    BehindValue (commaWords (!rest.isEmpty) ++ (rest.entries.words ++ "\x7d" :: us)) := by
  cases rest with
  | nil => exact .brace us
  | cons name value rest => exact .comma _

end Description

namespace Grammar

open Reading

section
variable {nested : Reading Endpoint}

/-- No name goes on with a colon. -/
theorem colon_head (us : List String) :
    ∀ x ∈ (String.join (":" :: us)).toList.head?, Text.isIdentChar x = false :=
  fun x hx => (Bool.or_eq_false_iff.1 (join_symbol_head (d := .colon) (by decide) us x hx)).1

theorem glue_name (name : String) (us ws : List String) :
    glue false (name :: us) ws = glue false (nameTokens name ++ us) ws := by
  refine glue_congr ?_ ws
  rw [String.join_append, join_nameTokens, String.join_cons]

theorem lexes_colon (us ws : List String) :
    Lexes .plain (glue false (":" :: us) ws) (.delimiter .colon) ":" (glue false us ws) :=
  lexes_delimiter false (Delimiter.spells_symbol (d := .colon) (by simp)) rfl rfl us ws

/-- The first word of a name starts no binding. -/
theorem lexes_fieldName {name : String} (h : isFieldName name = true) (us ws : List String) :
    ∃ kind w rest, Lexes .keyword (glue false (name :: ":" :: us) ws) kind w rest ∧
      kind ≠ .delimiter .rightBrace ∧ kind ≠ .keyword .kwAdditionalBindings := by
  rw [isFieldName, Bool.and_eq_true, Bool.not_eq_true'] at h
  obtain ⟨hfull, hfirst⟩ := h
  obtain ⟨first, rest, hts, hident, hdots⟩ := isFullIdent_cases hfull
  rw [hts, ← Bool.not_eq_true, startsWith_cons, List.mem_singleton] at hfirst
  have hl := lexes_ident .keyword false hident (isDots_head _ hdots (colon_head us)) ws
  rw [← List.cons_append, ← hts, ← glue_name] at hl
  refine ⟨_, _, _, hl, ?_⟩
  rcases wordKind_keyword_cases first with hk | ⟨k, hk, hword⟩
  · rw [hk]
    exact ⟨by simp, by simp⟩
  · rw [hk]
    refine ⟨by simp, fun h => hfirst ?_⟩
    rw [← hword, Kind.keyword.inj h]

/-- A name is read up to the colon behind it. -/
theorem fieldName_yields {name : String} (h : isFieldName name = true) (us ws : List String) :
    Yields fullIdent (glue false (name :: ":" :: us) ws) fun a ws' =>
      a.1 = name ∧ ws' = glue false (":" :: us) ws := by
  rw [isFieldName, Bool.and_eq_true] at h
  rw [glue_name]
  refine (fullIdent_glued _ (colon_head us) ⟨_, _, lexes_colon us ws⟩ (by simp) h.1).mono ?_
  rintro a _ ⟨ha, rfl⟩
  exact ⟨ha.trans (join_nameTokens name), rfl⟩

/-- In front of a group there is no constant. -/
theorem group_yields (us ws : List String) :
    Yields (constant? true) (glue false ("\x7b" :: us) ws) fun a ws' =>
      a.1 = none ∧ ws' = glue false ("\x7b" :: us) ws := by
  have hl := lexes_leftBrace .literal false us ws
  refine yields_next_bind rfl hl fun r hr _ _ => sat_position_bind ?_
  exact (hr.putBack rfl hl.bare).bind fun _ r' hr' => sat_pure ⟨_, hr', rfl, rfl⟩

/-- A field is read, and its value has the text that it had. -/
theorem endpointField_yields {name : String} {value : Value} (hname : isFieldName name = true)
    (hvalue : value.literal.isWellFormed isFieldName = true) (hn : value.Nests nested)
    (hus : BehindValue us) :
    Yields (endpointField nested) (glue false (name :: ":" :: (value.literal.words ++ us)) ws)
      fun f ws' => f.move (fun _ => {}) = { name, constant := value.text } ∧
        ws' = glue false us ws := by
  refine (fieldName_yields hname _ ws).bind ?_
  rintro ⟨_, start⟩ _ ⟨rfl, rfl⟩
  refine yields_next_bind rfl (lexes_colon _ ws) fun r _ hr _ => ?_
  cases value with
  | constant text =>
    have hwords : glue false ((Value.constant text).literal.words ++ us) ws =
        glue false (valueTokens text ++ us) ws := by
      refine glue_congr ?_ ws
      rw [String.join_append, String.join_append, join_valueTokens]
      exact congrArg (· ++ String.join us) (join_valueWords text)
    rw [hwords] at hr
    refine (value_glued true hus.head hvalue (hus.halts ws) _ hr).bind ?_
    rintro ⟨_, p⟩ r ⟨_, hr, rfl, rfl⟩
    exact sat_pure_bind (sat_position_bind (sat_pure ⟨_, hr, rfl, rfl⟩))
  | group fields bindings =>
    have hwords : (Value.group fields bindings).literal.words ++ us =
        "\x7b" :: (fields.entries.words ++ "\x7d" :: us) := Literal.words_group fields.entries us
    rw [hwords] at hr
    refine (group_yields _ ws _ hr).bind ?_
    rintro ⟨_, p⟩ r ⟨_, hr, rfl, rfl⟩
    refine (hn us ws _ hr).bind ?_
    rintro e r ⟨_, hr, he, rfl⟩
    refine sat_pure_bind (sat_position_bind (sat_pure ⟨_, hr, ?_, rfl⟩))
    have hconstant : e.constant = (Value.group fields bindings).text := by
      rw [← Endpoint.constant_move (fun _ => {}) e, ← Endpoint.erase, he, Value.text]
    rw [← hconstant]
    rfl

/-- The bracket behind all fields ends the endpoint. -/
theorem endpointRound_close (e : Endpoint) (us ws : List String) :
    Yields (endpointRound nested e) (glue false ("\x7d" :: us) ws) fun a ws' =>
      a = .done e ∧ ws' = glue false us ws := by
  have hclose : Lexes .keyword (glue false ("\x7d" :: us) ws) (.delimiter .rightBrace) "\x7d"
      (glue false us ws) :=
    lexes_delimiter false (Delimiter.spells_symbol (d := .rightBrace) (by simp)) rfl rfl us ws
  exact yields_next_bind rfl hclose fun r _ hr _ => sat_pure ⟨_, hr, rfl, rfl⟩

theorem comma_yields (rest : Fields) (us ws : List String) : Yields (accept .comma)
    (glue false (commaWords (!rest.isEmpty) ++ (rest.entries.words ++ "\x7d" :: us)) ws)
      fun _ ws' => ws' = glue false (rest.entries.words ++ "\x7d" :: us) ws := by
  cases rest with
  | nil =>
    have hclose : Lexes .plain (glue false ("\x7d" :: us) ws) (.delimiter .rightBrace) "\x7d"
        (glue false us ws) :=
      lexes_delimiter false (Delimiter.spells_symbol (d := .rightBrace) (by simp)) rfl rfl us ws
    exact (accept_yields_false (d := .comma) hclose (by simp)).mono fun _ _ h => h.2
  | cons name value rest =>
    have hcomma : Lexes .plain (glue false ("," :: ((Fields.cons name value rest).entries.words ++
        "\x7d" :: us)) ws) (.delimiter .comma) ","
          (glue false ((Fields.cons name value rest).entries.words ++ "\x7d" :: us) ws) :=
      lexes_delimiter false (Delimiter.spells_symbol (d := .comma) (by simp)) rfl rfl _ ws
    exact (accept_yields hcomma).mono fun _ _ h => h.2

/-- A round reads a field, and the comma behind it. -/
theorem endpointRound_field (e : Endpoint) {name : String} {value : Value} {rest : Fields}
    (hname : isFieldName name = true) (hvalue : value.literal.isWellFormed isFieldName = true)
    (hn : value.Nests nested) :
    Yields (endpointRound nested e)
      (glue false ((Fields.cons name value rest).entries.words ++ "\x7d" :: us) ws) fun a ws' =>
        ∃ f, a = .again { e with fields := e.fields ++ [f] } ∧
          f.move (fun _ => {}) = { name, constant := value.text } ∧
          ws' = glue false (rest.entries.words ++ "\x7d" :: us) ws := by
  rw [Fields.words_cons]
  obtain ⟨kind, w, more, hl, hbrace, hbinding⟩ := lexes_fieldName hname
    (value.literal.words ++ (commaWords (!rest.isEmpty) ++ (rest.entries.words ++ "\x7d" :: us))) ws
  refine yields_next_bind rfl hl fun r hr _ _ => ?_
  split
  · exact absurd rfl hbrace
  · exact absurd rfl hbinding
  · refine (hr.putBack rfl hl.bare).bind fun _ r hr => ?_
    refine (endpointField_yields hname hvalue hn (rest.behindValue us) r hr).bind ?_
    rintro f r ⟨_, hr, hf, rfl⟩
    refine (comma_yields rest us ws r hr).bind ?_
    rintro _ r ⟨_, hr, rfl⟩
    exact sat_pure ⟨_, hr, f, rfl, hf, rfl⟩

/-- A name shows, so that every field takes characters. -/
theorem ink_field {name : String} (h : isFieldName name = true) (value : Value) (rest : Fields)
    (us : List String) : ink (rest.entries.words ++ us) <
      ink ((Fields.cons name value rest).entries.words ++ us) := by
  rw [isFieldName, Bool.and_eq_true] at h
  obtain ⟨first, more, hts, hident, -⟩ := isFullIdent_cases h.1
  have hname : ink [name] = ink (nameTokens name) := by
    have hglue := congrArg ink (glue_name name [] [])
    rwa [ink_glue, ink_glue, List.append_nil] at hglue
  have hfirst : ink more < ink (nameTokens name) := hts ▸ (shows_ident hident).ink_pos more
  rw [Fields.words_cons]
  simp only [ink_cons, ink_append, ink_nil] at hname ⊢
  omega

/-- The fields between the brackets are read. -/
theorem endpointWith_yields {fs : Fields} (h : fs.entries.areWellFormed isFieldName = true)
    (hn : fs.Nests nested) (us ws : List String) :
    Yields (endpointWith nested)
      (glue false ("\x7b" :: (fs.entries.words ++ "\x7d" :: us)) ws) fun e ws' =>
        e.erase = { fields := fs.kept } ∧ ws' = glue false us ws := by
  refine (expectDelimiter_yields (lexes_leftBrace .plain false _ ws) _).bind ?_
  rintro _ _ rfl
  -- what was read and what is left make up all fields
  refine yields_repeatFrom (I := fun e ws' => ∃ rest : Fields,
    rest.entries.areWellFormed isFieldName = true ∧ rest.Nests nested ∧
      ws' = glue false (rest.entries.words ++ "\x7d" :: us) ws ∧ e.bindings = [] ∧
        e.fields.map (·.move fun _ => {}) ++ rest.kept = fs.kept) ⟨fs, h, hn, rfl, rfl, rfl⟩ ?_
  rintro e _ ⟨rest, hrest, hnests, rfl, hbindings, hfields⟩
  cases rest with
  | nil =>
    refine (endpointRound_close e us ws).mono ?_
    rintro _ _ ⟨rfl, rfl⟩
    refine ⟨?_, rfl⟩
    rw [Fields.kept, List.append_nil] at hfields
    rw [Endpoint.erase, Endpoint.move, hbindings, hfields]
    rfl
  | cons name value rest =>
    simp only [Fields.entries, Entries.areWellFormed, Bool.and_eq_true] at hrest
    obtain ⟨⟨hname, hvalue⟩, hrest⟩ := hrest
    refine (endpointRound_field e hname hvalue hnests.1).mono ?_
    rintro _ _ ⟨f, rfl, hf, rfl⟩
    refine ⟨⟨rest, hrest, hnests.2, rfl, hbindings, ?_⟩, ?_⟩
    · rw [← hfields, Fields.kept, List.map_append, List.append_assoc, List.map_singleton, hf]
      rfl
    · have hink := ink_field hname value rest ("\x7d" :: us)
      rw [ink_glue, ink_glue]
      omega

end

end Grammar

/-! ## Nesting -/

namespace Description

mutual
/-- Groups are read if they are not nested too deep. -/
theorem Value.nests : (v : Value) → v.literal.isWellFormed isFieldName = true → {depth : Nat} →
    v.literal.depth ≤ depth → v.Nests (Grammar.endpointAtMost depth)
  | .constant _, _, _, _ => trivial
  | .group _ _, _, 0, hd => absurd hd (Nat.not_succ_le_zero _)
  | .group fields _, h, _ + 1, hd =>
    Grammar.endpointWith_yields h (Fields.nests fields h (Nat.le_of_succ_le_succ hd))

theorem Fields.nests : (fs : Fields) → fs.entries.areWellFormed isFieldName = true →
    {depth : Nat} → fs.entries.depth ≤ depth → fs.Nests (Grammar.endpointAtMost depth)
  | .nil, _, _, _ => trivial
  | .cons name value rest, h, depth, hd => by
    simp only [Fields.entries, Entries.areWellFormed, Bool.and_eq_true] at h
    simp only [Fields.entries, Entries.depth] at hd
    exact ⟨Value.nests value h.1.2 (by omega), Fields.nests rest h.2 (by omega)⟩
end

end Description

namespace Grammar

open Reading

/-- The text of an endpoint is read back as an endpoint with the same fields. -/
theorem endpoint_yields {fs : Fields} (h : fs.entries.areWellFormed isFieldName = true)
    (us ws : List String) :
    Yields endpoint (glue false ("\x7b" :: (fs.entries.words ++ "\x7d" :: us)) ws) fun e ws' =>
      e.erase = { fields := fs.kept } ∧ ws' = glue false us ws := by
  intro r hr
  refine sat_get.bind ?_
  rintro _ r ⟨rfl, rfl⟩
  have hdepth : (Literal.group fs.entries).depth ≤ r.rounds := by
    have hink := hr.ink_lt
    have hle := Literal.depth_le_ink (.group fs.entries)
    rw [ink_glue, ← Literal.words_group, ink_append] at hink
    rw [Reader.rounds]
    omega
  exact Description.Value.nests (.group fs .nil) h hdepth us ws r hr

end Grammar

end ProtoIdl
