import ProtoIdl.Proofs.Grammar.Stated
import ProtoIdl.Proofs.Recovered
import ProtoIdl.Proofs.Recovery.Endpoints
/-!
# The text that is kept of an endpoint is read again

An endpoint is turned into a text with its fields, which has no white space between them, and that text
is the value of an option again. What is read from it has the same fields: the values that were written
between curly brackets were texts already, and come back as the same texts. Bindings are not in the
text, so there are none. Main statement: `endpoint_reread`.
-/
namespace ProtoIdl

open Spelling
open Description (Fields Value isFieldName)

variable {fs : Fields}

/-- The endpoint of an option in a file that is read has fields that are spelled as they are read. -/
theorem endpoint_makes {opts : Grammar.Options} {bytes : List UInt8} {file : String} {f : File}
    (hf : parse opts bytes file = .ok f) {o : OptionSetting} {notes : Notes} {e : Endpoint}
    (ho : f.Has (.element (.statement (.option o) notes))) (he : o.endpoint = some e) :
    ∃ fs : Fields, fs.Makes e := by
  have hlegible : o.Legible opts.permissive := parse_states hf ho
  rcases hlegible.value with ⟨hnone, -⟩ | ⟨-, e', fs, he', hfs⟩
  · rw [he] at hnone
    cases hnone
  · obtain rfl : e = e' := Option.some.inj (he.symm.trans he')
    exact ⟨fs, hfs⟩

/-! ## The words of an option -/

/-- The words of an option that has these fields as its value. -/
def optionWords (fs : Fields) : List String :=
  "option" :: "x" :: "=" :: glue false ("\x7b" :: (fs.entries.words ++ ["\x7d", ";"])) []

namespace Description

mutual
/-- The tokens of a value make its text. -/
theorem Value.join_words : (v : Value) → String.join v.literal.words = v.literal.render
  | .constant text => join_valueWords text
  | .group fields _ => by
    rw [Value.literal, Literal.words, Literal.render, List.cons_append, String.join_cons,
      String.join_append, Fields.join_words fields, String.append_assoc]
    simp

theorem Fields.join_words : (fs : Fields) → String.join fs.entries.words = fs.entries.render
  | .nil => String.join_nil
  | .cons name value rest => by
    have hcomma (comma : Bool) : String.join (commaWords comma) = if comma then "," else "" := by
      cases comma <;> rfl
    rw [Fields.entries, Entries.words, Entries.render]
    simp only [String.join_append, String.join_cons, Value.join_words value, Fields.join_words rest,
      hcomma, String.append_assoc]
end

end Description

/-- The words make the text of an option. -/
theorem spaced_optionWords (fs : Fields) : spaced (optionWords fs) =
    ("option x = " ++ (Value.group fs .nil).text ++ ";").toList := by
  have hjoin : String.join ("\x7b" :: (fs.entries.words ++ ["\x7d", ";"])) =
      (Value.group fs .nil).text ++ ";" := by
    have hgroup := Description.Value.join_words (.group fs .nil)
    rw [Value.render_literal] at hgroup
    rw [← hgroup]
    simp [Value.literal, Literal.words, String.append_assoc]
  rw [optionWords, glue, if_neg Bool.false_ne_true, hjoin]
  simp [spaced]

namespace Grammar

open Reading

/-- What is read from the words of an option: its fields, and nothing else. -/
def IsReread (fs : Fields) (o : OptionSetting) : Prop :=
  ∃ e : Endpoint, o = { name := "x", endpoint := some e } ∧ e.erase = { fields := fs.kept }

theorem option_reread {opts : Options} (hp : opts.permissive = true)
    (h : fs.entries.areWellFormed isFieldName = true) :
    Yields (option opts) (optionWords fs) fun n ws' =>
      (∃ o, IsReread fs o ∧ Bare o n) ∧ ws' = [] := by
  have hname (ws : List String) : Yields optionName (glue false (nameTokens "x") ("=" :: ws))
      fun a ws' => a = String.join (nameTokens "x") ∧ ws' = "=" :: ws :=
    optionName_yields (by decide +kernel) (next_symbol (d := .equals) (by simp) ws) (by simp)
  have hend : glue false [";"] [] = [";"] := by decide
  refine (keyword_yields .kwOption _).bind ?_
  rintro start _ rfl
  refine (hname _).bind ?_
  rintro _ _ ⟨rfl, rfl⟩
  refine (symbol_yields (d := .equals) (by simp) _ _).bind ?_
  rintro _ _ rfl
  rw [hp]
  refine (group_yields _ _).bind ?_
  rintro ⟨_, p⟩ _ ⟨rfl, rfl⟩
  refine (endpoint_yields h [";"] []).bind ?_
  rintro e _ ⟨he, rfl⟩
  rw [hend, join_nameTokens]
  refine (noted_yields { name := "x", endpoint := some e : OptionSetting } start []).mono ?_
  exact fun n ws' hn => ⟨⟨_, ⟨e, rfl, he⟩, hn.1⟩, hn.2⟩

/-- The option is all that is read. -/
theorem file_reread {opts : Options} (hp : opts.permissive = true)
    (h : fs.entries.areWellFormed isFieldName = true) :
    Yields (file opts) (optionWords fs) fun g _ => ∃ o notes, IsReread fs o ∧
      g = { body := [.statement (.option o) notes] } := by
  have hl : Lexes .keyword (optionWords fs) (.keyword .kwOption) "option" _ :=
    lexes_keyword .kwOption _
  refine yields_repeatFrom (I := fun g ws' => g = {} ∧ ws' = optionWords fs ∨
    ws' = [] ∧ ∃ o notes, IsReread fs o ∧ g = { body := [.statement (.option o) notes] })
    (.inl ⟨rfl, rfl⟩) ?_
  rintro g _ (⟨rfl, rfl⟩ | ⟨rfl, o, notes, ho, rfl⟩)
  · refine (commentsAhead_yields hl.bare).bind ?_
    rintro _ _ ⟨rfl, rfl⟩
    refine (peek_yields rfl hl).bind ?_
    rintro _ _ ⟨rfl, rfl⟩
    have helement : Yields (element opts (body opts) true [] .option) (optionWords fs)
        fun es ws' => (∃ d, es = [d] ∧ ∃ o notes, IsReread fs o ∧ d = .statement (.option o) notes) ∧
          ws' = [] := by
      refine element_yields front_nil_bare opts true ?_
      refine (option_reread hp h).bind ?_
      rintro _ _ ⟨⟨o, ho, x, rfl⟩, rfl⟩
      exact yields_pure ⟨⟨⟨o, _, ho, rfl⟩, x, rfl⟩, rfl⟩
    refine helement.bind ?_
    rintro _ _ ⟨⟨_, rfl, o, notes, ho, rfl⟩, rfl⟩
    refine yields_pure ⟨.inr ⟨rfl, o, notes, ho, rfl⟩, ?_⟩
    have hink : ink (optionWords fs).tail < ink (optionWords fs) := by
      exact (shows_ident (isIdent_keyword .kwOption)).ink_pos _
    exact Nat.lt_of_le_of_lt (Nat.zero_le _) hink
  · refine (commentsAhead_yields front_nil_bare).bind ?_
    rintro _ _ ⟨rfl, rfl⟩
    refine (peek_yields rfl (lexes_eof .keyword rfl)).bind ?_
    rintro _ _ ⟨rfl, rfl⟩
    exact yields_pure ⟨o, notes, ho, rfl⟩

end Grammar

/-! ## Endpoints -/

/-- Whatever endpoint was read, its text is read as the value of an option, and what is read has the same
names and constants in the same order, no bindings, and the same text. -/
theorem endpoint_reread {opts opts' : Grammar.Options} {bytes : List UInt8} {file : String}
    {f : File} (hf : parse opts bytes file = .ok f) {o : OptionSetting} {notes : Notes} {e : Endpoint}
    (ho : f.Has (.element (.statement (.option o) notes))) (he : o.endpoint = some e)
    (hp : opts'.permissive = true) (file' : String) : ∃ g notes' e',
      parse opts' (Utf8.encode ("option x = " ++ e.constant ++ ";").toList) file' = .ok g ∧
        g = { body := [.statement (.option { name := "x", endpoint := some e' }) notes'] } ∧
        e'.fields.map (fun a => (a.name, a.constant)) =
          e.fields.map (fun a => (a.name, a.constant)) ∧
        e'.bindings = [] ∧ e'.constant = e.constant := by
  obtain ⟨fs, hfs⟩ := endpoint_makes hf ho he
  obtain ⟨g, _, hg, _, notes', ⟨e', rfl, herase⟩, hbody⟩ :=
    (Grammar.file_reread hp hfs.wellFormed).exists_outcome file'
  rw [spaced_optionWords, ← hfs.constant_eq] at hg
  have hfields : e'.fields.map (·.move fun _ => {}) = e.fields.map (·.move fun _ => {}) :=
    (congrArg Endpoint.fields herase).trans hfs.kept_eq.symm
  refine ⟨g, notes', e', hg, hbody, ?_, ?_, ?_⟩
  · have hpairs := congrArg (List.map fun a : EndpointField => (a.name, a.constant)) hfields
    rwa [List.map_map, List.map_map] at hpairs
  · exact List.map_eq_nil_iff.1 (congrArg Endpoint.bindings herase)
  · rw [hfs.constant_eq, ← Endpoint.constant_move (fun _ => {}) e', ← Endpoint.erase, herase,
      Value.text]

/-- The endpoint of the only option in a file. -/
def soleEndpoint (f : File) : Option Endpoint :=
  match f.body with
  | [.statement (.option o) _] => o.endpoint
  | _ => none

theorem exists_endpoint {f : File} {e : Endpoint} (h : soleEndpoint f = some e) :
    ∃ o notes, f.Has (.element (.statement (.option o) notes)) ∧ o.endpoint = some e := by
  unfold soleEndpoint at h
  split at h
  · next o notes hbody =>
    exact ⟨o, notes, .top (List.mem_append_right _ (hbody ▸ List.mem_cons_self)), h⟩
  · cases h

/-- Joined strings, a number with two signs, a float that ends with its point, and a name. -/
def rereadText : String :=
  "option (http) = \x7bget: \"/v1/\" 'x' n \x7bk: --5, f: 1. d: a.b\x7d additional_bindings \x7bput: p\x7d\x7d;"

theorem endpoint_reread_sample : ∃ f o notes e,
    parse { permissive := true } (Utf8.encode rereadText.toList) "m.proto" = .ok f ∧
    f.Has (.element (.statement (.option o) notes)) ∧ o.endpoint = some e ∧
    e.constant = "\x7bget:\"/v1/x\",n:\x7bk:--5,f:1.,d:a.b\x7d\x7d" ∧
    ∃ g notes' e',
      parse { permissive := true } (Utf8.encode ("option x = " ++ e.constant ++ ";").toList) "" =
        .ok g ∧
      g = { body := [.statement (.option { name := "x", endpoint := some e' }) notes'] } ∧
      e'.fields.map (fun a => (a.name, a.constant)) =
        [("get", "\"/v1/x\""), ("n", "\x7bk:--5,f:1.,d:a.b\x7d")] ∧
      e'.bindings = [] ∧ e'.constant = e.constant := by
  have h : (parse { permissive := true } (Utf8.encode rereadText.toList) "m.proto").toOption.any
      (fun f => (soleEndpoint f).any fun e =>
        e.constant == "\x7bget:\"/v1/x\",n:\x7bk:--5,f:1.,d:a.b\x7d\x7d" &&
          e.fields.map (fun a => (a.name, a.constant)) ==
            [("get", "\"/v1/x\""), ("n", "\x7bk:--5,f:1.,d:a.b\x7d")]) = true := by
    decide +kernel
  obtain ⟨f, hf, hany⟩ := exists_ok h
  obtain ⟨e, hsole, heq⟩ := (Option.any_eq_true _ _).1 hany
  rw [Bool.and_eq_true, beq_iff_eq, beq_iff_eq] at heq
  obtain ⟨o, notes, ho, he⟩ := exists_endpoint hsole
  have hp : ({ permissive := true } : Grammar.Options).permissive = true := rfl
  obtain ⟨g, notes', e', hg, hbody, hfields, hrest⟩ := endpoint_reread hf ho he hp ""
  exact ⟨f, o, notes, e, hf, ho, he, heq.1, g, notes', e', hg, hbody, hfields.trans heq.2, hrest⟩

end ProtoIdl
