import ProtoIdl.Proofs.Grammar.Values
import ProtoIdl.Proofs.Recovered
/-!
# The literal of a setting and its text

The tree keeps the literal of a validator as text only, white space left out. Where the reader lets a
comma between two entries be left out nothing is put in its place, so that the value in front and the
name behind are written as one word: a value `b` before a name `cd` and a value `bc` before a name `d`
give the same text. A literal in which a value and a name behind it without a comma can be taken for
another value and name is one of several with its text; every other literal that is read is the only
one. Main statement: `setting_entries`.
-/
namespace ProtoIdl

open Spelling

namespace Grammar

open Reading

/-- Reads a setting, and tells which literal was read for it, if one was. -/
def settingWithLiteral (opts : Options) : Reading (Setting × Option Literal) := do
  let name ← optionName
  expectDelimiter .equals "="
  match ← constant? opts.permissive with
  | (some constant, _) => return ({ name, constant }, none)
  | (none, _) =>
    let l ← literal
    return ({ name, constant := l.render }, some l)

theorem fst_settingWithLiteral (opts : Options) :
    Prod.fst <$> settingWithLiteral opts = setting opts := by
  unfold settingWithLiteral setting
  simp only [map_bind]
  refine bind_congr fun name => bind_congr fun _ => bind_congr fun a => ?_
  rcases a with ⟨_ | constant, p⟩
  · rw [map_bind]
    exact bind_congr fun l => rfl
  · rfl

theorem settingWithLiteral_sat (opts : Options) (r : Reader) : Sat (settingWithLiteral opts) r
    (fun a _ => ∀ l, a.2 = some l → a.1.constant = l.render ∧ l.Legible ∧ ∃ es, l = .group es)
    fun _ => True := by
  refine (sat_trivial optionName r).bind fun name r _ => ?_
  refine (sat_trivial (expectDelimiter .equals "=") r).bind fun _ r _ => ?_
  refine (sat_trivial (constant? opts.permissive) r).bind fun a r _ => ?_
  rcases a with ⟨_ | constant, p⟩
  · refine (literal_legible r).bind fun l r hl => sat_pure ?_
    rintro _ ⟨⟩
    exact ⟨rfl, hl⟩
  · exact sat_pure nofun

/-- Every literal that is spelled as the grammar has it is the value of some setting. -/
theorem settingWithLiteral_yields {es : Entries} (h : (Literal.group es).Legible) :
    Yields (settingWithLiteral { permissive := true }) ("x" :: "=" :: (Literal.group es).words)
      fun a _ => a = (⟨"x", (Literal.group es).render⟩, some (.group es)) := by
  have hname : Yields optionName (glue true ["x"] ("=" :: (Literal.group es).words))
      fun a ws' => a = "x" ∧ ws' = "=" :: (Literal.group es).words :=
    optionName_yields (by decide +kernel) (next_symbol (d := .equals) nofun _) nofun
  refine hname.bind ?_
  rintro _ _ ⟨rfl, rfl⟩
  refine (symbol_yields (d := .equals) nofun _ _).bind ?_
  rintro _ _ rfl
  have hwords : (Literal.group es).words = (Literal.group es).words ++ [] :=
    (List.append_nil _).symm
  rw [hwords]
  refine (curly_yields es []).bind ?_
  rintro ⟨_, _⟩ _ ⟨rfl, rfl⟩
  refine (literal_yields h.wellFormed h.filled []).bind ?_
  rintro _ _ ⟨rfl, -⟩
  exact yields_pure rfl

end Grammar

open Grammar

/-- The text of a literal tells its entries if and only if no value in it runs into the name behind
it. -/
theorem setting_entries {opts : Options} {r r' : Reader} {s : Setting} {l : Literal}
    (h : settingWithLiteral opts r = .ok (s, some l) r') :
    setting opts r = .ok s r' ∧
      ((∀ (opts' : Options) (q q' : Reader) (t : Setting) (m : Literal),
        settingWithLiteral opts' q = .ok (t, some m) q' → m.withCommas ≠ l.withCommas →
          t.constant ≠ s.constant) ↔ l.isBlurred isKey = false) := by
  have hsetting : setting opts r = .ok s r' := by
    rw [← fst_settingWithLiteral, Reading.run_map, h]
  obtain ⟨hs, hl, es, rfl⟩ := (settingWithLiteral_sat opts r).ok h l rfl
  refine ⟨hsetting, fun hothers => ?_, fun hb opts' q q' t m hm hne heq => ?_⟩
  · rw [← Bool.not_eq_true]
    intro hb
    obtain ⟨fs, hf, hempty, hfilled, hrender, hne⟩ := Entries.exists_recut es hl.wellFormed hb
    have hes := hl.filled
    rw [Literal.isFilled, Bool.and_eq_true, Bool.not_eq_true', ← hempty] at hes
    have hlegible : (Literal.group fs).Legible :=
      Literal.legible_group ⟨hf, hfilled hes.2⟩ hes.1
    obtain ⟨_, -, q', hq, rfl⟩ := (settingWithLiteral_yields hlegible).exists_ok ""
    refine hothers _ _ q' _ _ hq ?_ ?_
    · simpa only [Literal.withCommas, ne_eq, Literal.group.injEq] using hne
    · rw [hs, Literal.render, Literal.render, hrender]
  · obtain ⟨ht, hm', -⟩ := (settingWithLiteral_sat opts' q).ok hm m rfl
    have htext : (Literal.group es).render.toList ++ [] = m.render.toList ++ [] := by
      rw [← hs, ← ht, heq]
    obtain ⟨rfl, -⟩ := Literal.render_cancel areWords_isKey (.group es) m hl.wellFormed
      hm'.wellFormed hb nofun htext
    exact hne rfl

/-- Of the setting that is read from the start of a text: the constant stored, the text its literal has
with all commas, and whether in the literal a value runs into a name. -/
def settingOf (text : String) : Option (String × Option (String × Bool)) :=
  ((settingWithLiteral { permissive := true }).run'
    (Reader.ofBytes (Utf8.encode text.toList) "")).map fun a =>
      (a.1.constant, a.2.map fun l => (l.withCommas.render, l.isBlurred isKey))

theorem exists_setting {text constant entries : String} {blurred : Bool}
    (h : settingOf text = some (constant, some (entries, blurred))) : ∃ s l r',
      settingWithLiteral { permissive := true } (Reader.ofBytes (Utf8.encode text.toList) "") =
        .ok (s, some l) r' ∧ s.constant = constant ∧ l.withCommas.render = entries ∧
          l.isBlurred isKey = blurred := by
  obtain ⟨⟨s, read⟩, hrun, ha⟩ := Option.map_eq_some_iff.1 h
  obtain ⟨rfl, hread⟩ := Prod.mk.inj ha
  obtain ⟨l, rfl, hl⟩ := Option.map_eq_some_iff.1 hread
  obtain ⟨rfl, rfl⟩ := Prod.mk.inj hl
  obtain ⟨r', hok⟩ := Reading.exists_run hrun
  exact ⟨s, l, r', hok, rfl, rfl, rfl⟩

/-- A comma may be left out behind a number that the name cannot take anything from. -/
theorem setting_entries_sample : ∃ s l r',
    settingWithLiteral { permissive := true }
        (Reader.ofBytes (Utf8.encode "(v) = \x7ba: 1 b: \x7bc: ['x', 'y']\x7d\x7d".toList) "") =
      .ok (s, some l) r' ∧ s.constant = "\x7ba:1b:\x7bc:['x' 'y']\x7d\x7d" ∧
        ∀ (opts' : Options) (q q' : Reader) (t : Setting) (m : Literal),
          settingWithLiteral opts' q = .ok (t, some m) q' → m.withCommas ≠ l.withCommas →
            t.constant ≠ s.constant := by
  have hrun : settingOf "(v) = \x7ba: 1 b: \x7bc: ['x', 'y']\x7d\x7d" =
      some ("\x7ba:1b:\x7bc:['x' 'y']\x7d\x7d", some
        ("\x7ba:1,b:\x7bc:['x' 'y'],\x7d,\x7d", false)) := by
    decide +kernel
  obtain ⟨s, l, r', h, hconstant, -, hb⟩ := exists_setting hrun
  exact ⟨s, l, r', h, hconstant, (setting_entries h).2.2 hb⟩

/-- The same letters, cut in two places. -/
theorem setting_recut : ∃ s t l m r' q',
    settingWithLiteral { permissive := true }
        (Reader.ofBytes (Utf8.encode "(v) = \x7ba: b cd: e\x7d".toList) "") =
      .ok (s, some l) r' ∧
    settingWithLiteral { permissive := true }
        (Reader.ofBytes (Utf8.encode "(v) = \x7ba: bc d: e\x7d".toList) "") =
      .ok (t, some m) q' ∧ l.withCommas ≠ m.withCommas ∧ s.constant = t.constant := by
  have hrun : settingOf "(v) = \x7ba: b cd: e\x7d" =
      some ("\x7ba:bcd:e\x7d", some ("\x7ba:b,cd:e,\x7d", true)) := by decide +kernel
  have hrun' : settingOf "(v) = \x7ba: bc d: e\x7d" =
      some ("\x7ba:bcd:e\x7d", some ("\x7ba:bc,d:e,\x7d", true)) := by decide +kernel
  obtain ⟨s, l, r', h, hs, hl, -⟩ := exists_setting hrun
  obtain ⟨t, m, q', h', ht, hm, -⟩ := exists_setting hrun'
  refine ⟨s, t, l, m, r', q', h, h', fun heq => ?_, hs.trans ht.symm⟩
  rw [heq, hm] at hl
  exact absurd hl (by decide)

end ProtoIdl
