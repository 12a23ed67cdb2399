import ProtoIdl.Proofs.Dropped
import ProtoIdl.Proofs.Grammar.Values
import ProtoIdl.Proofs.Tree.Description
/-!
# What an option tells of its endpoint

An option whose value stands between curly brackets keeps the fields that are written there and those of
its bindings, each in their order. Of what is written in the value of a field, and in a binding, it
keeps the fields alone: bindings there are read and dropped. So two options have the same endpoint, up
to places, if and only if the same is written for them up to these bindings; nothing is lost where
there are none. Main statement: `option_description`.
-/
namespace ProtoIdl

namespace Grammar

open Reading

/-! ## Readers that tell what was written -/

/-- Reads a field, and tells which value was written. -/
def fieldWithValue (nested : Reading (Endpoint × Description)) :
    Reading (EndpointField × Description.Value) := do
  let (name, start) ← fullIdent
  let read ←
    match ← next .plain with
    | .delimiter .leftBrace =>
      putBack
      let inner ← nested
      pure (inner.1.constant, inner.2.value)
    | .delimiter .colon =>
      match ← constant? true with
      | (some constant, _) => pure (constant, .constant constant)
      | (none, _) =>
        let inner ← nested
        pure (inner.1.constant, inner.2.value)
    | _ => reject ":"
  return ({ name, constant := read.1, extent := ⟨start, ← position⟩ }, read.2)

/-- Reads a binding, and tells what was written in it. -/
def bindingWithDescription (nested : Reading (Endpoint × Description)) :
    Reading (Binding × Description) := do
  let start ← position
  let _ ← accept .colon
  let inner ← nested
  return ({ fields := inner.1.fields, extent := ⟨start, ← position⟩ }, inner.2)

/-- Reads a field or a binding, and adds what was written to what was written before. -/
def roundWithDescription (nested : Reading (Endpoint × Description))
    (read : Endpoint × Description) :
    Reading (Round (Endpoint × Description) (Endpoint × Description)) := do
  match ← nextKeyword with
  | .delimiter .rightBrace => return .done read
  | .keyword .kwAdditionalBindings =>
    let b ← bindingWithDescription nested
    let _ ← accept .comma
    return .again ({ read.1 with bindings := read.1.bindings ++ [b.1] },
      { read.2 with bindings := read.2.bindings.push b.2 })
  | _ =>
    putBack
    let f ← fieldWithValue nested
    let _ ← accept .comma
    return .again ({ read.1 with fields := read.1.fields ++ [f.1] },
      { read.2 with fields := read.2.fields.push f.1.name f.2 })

/-- Reads an endpoint that is nested at most `depth` times, and tells what was written. -/
def endpointWithDescription : (depth : Nat) → Reading (Endpoint × Description)
  | 0 => throw .outOfRounds
  | depth + 1 => do
    expectDelimiter .leftBrace "\x7b"
    repeatFrom ({}, {}) (roundWithDescription (endpointWithDescription depth))

/-- Reads an option, and tells what was written for its endpoint, if it has one. -/
def optionWithDescription (opts : Options) :
    Reading (Noted OptionSetting × Option Description) := do
  let start ← expectKeyword .kwOption
  let name ← optionName
  expectDelimiter .equals "="
  let read ←
    match ← constant? opts.permissive with
    | (some constant, _) => pure ({ name, constant : OptionSetting }, none)
    | (none, _) =>
      let e ← endpointWithDescription (← get).rounds
      pure ({ name, endpoint := some e.1 : OptionSetting }, some e.2)
  return ({ item := read.1, notes := ← finish start }, read.2)

section
variable {nested : Reading Endpoint} {nested' : Reading (Endpoint × Description)}
  (hnested : Prod.fst <$> nested' = nested)
include hnested

theorem fst_fieldWithValue : Prod.fst <$> fieldWithValue nested' = endpointField nested := by
  unfold fieldWithValue endpointField
  subst hnested
  simp only [map_bind]
  refine bind_congr fun name => bind_congr fun kind => ?_
  split
  · simp only [map_bind, bind_map_left]
    exact bind_congr fun _ => bind_congr fun e => rfl
  · simp only [map_bind]
    refine bind_congr fun a => ?_
    rcases a with ⟨_ | constant, p⟩
    · simp only [map_bind, bind_map_left]
      exact bind_congr fun e => rfl
    · rfl
  · simp only [map_bind]
    exact bind_congr fun _ => rfl

theorem fst_bindingWithDescription :
    Prod.fst <$> bindingWithDescription nested' = binding nested := by
  unfold bindingWithDescription binding
  subst hnested
  simp only [map_bind, bind_map_left]
  exact bind_congr fun _ => bind_congr fun _ => bind_congr fun _ => rfl

theorem fst_roundWithDescription (e : Endpoint × Description) :
    Round.map Prod.fst Prod.fst <$> roundWithDescription nested' e = endpointRound nested e.1 := by
  unfold roundWithDescription endpointRound
  rw [← fst_fieldWithValue hnested, ← fst_bindingWithDescription hnested, map_bind]
  refine bind_congr fun kind => ?_
  split
  · rfl
  · simp only [map_bind, bind_map_left]
    exact bind_congr fun _ => bind_congr fun _ => rfl
  · simp only [map_bind, bind_map_left]
    exact bind_congr fun _ => bind_congr fun _ => bind_congr fun _ => rfl

end

theorem fst_endpointWithDescription (depth : Nat) :
    Prod.fst <$> endpointWithDescription depth = endpointAtMost depth := by
  induction depth with
  | zero => rfl
  | succ depth ih =>
    rw [endpointWithDescription, endpointAtMost, endpointWith, map_bind]
    exact bind_congr fun _ => map_repeatFrom (fst_roundWithDescription ih) ({}, {})

theorem fst_optionWithDescription (opts : Options) :
    Prod.fst <$> optionWithDescription opts = option opts := by
  unfold optionWithDescription option endpoint
  simp only [map_bind, ← fst_endpointWithDescription]
  refine bind_congr fun start => bind_congr fun name => bind_congr fun _ => bind_congr fun a => ?_
  rcases a with ⟨_ | constant, p⟩
  · simp only [map_bind, bind_map_left, bind_assoc]
    exact bind_congr fun _ => bind_congr fun _ => bind_congr fun _ => rfl
  · simp only [map_bind]
    exact bind_congr fun _ => rfl

/-! ## What is told is what was written -/

section
variable {nested : Reading (Endpoint × Description)}
  (hnested : ∀ r, Sat nested r (fun a _ => a.2.Describes a.1) fun _ => True)
include hnested

theorem fieldWithValue_sat (r : Reader) : Sat (fieldWithValue nested) r
    (fun a _ => Description.isName a.1.name = true ∧
      a.2.literal.isWellFormed Description.isName = true ∧ a.1.constant = a.2.text)
    fun _ => True := by
  refine fullIdent_tokens.bind ?_
  rintro ⟨name, start⟩ r ⟨ts, hfull, hname⟩
  replace hname : Description.isName name = true := by
    rw [show name = _ from hname, Description.isName, nameTokens_join hfull, hfull]
  refine (sat_trivial (next .plain) r).bind fun kind r _ => ?_
  have hgroup (r : Reader) : Sat nested r (fun a _ => a.2.value.literal.isWellFormed
      Description.isName = true ∧ a.1.constant = a.2.value.text) fun _ => True :=
    (hnested r).mono fun a _ ha => ⟨ha.legible.fields, ha.constant_eq⟩
  split
  · refine (sat_trivial putBack r).bind fun _ r _ => (hgroup r).bind fun a r ha => ?_
    exact sat_pure_bind (sat_position_bind (sat_pure ⟨hname, ha⟩))
  · refine (constant?_value true).bind ?_
    rintro ⟨_ | text, p⟩ r hvalue
    · refine (hgroup r).bind fun a r ha => ?_
      exact sat_pure_bind (sat_position_bind (sat_pure ⟨hname, ha⟩))
    · exact sat_pure_bind (sat_position_bind (sat_pure ⟨hname, hvalue text rfl, rfl⟩))
  · exact (reject_sat trivial).bind_of_fails

theorem bindingWithDescription_sat (r : Reader) : Sat (bindingWithDescription nested) r
    (fun a _ => a.2.Legible ∧ a.1.fields.map (·.move fun _ => {}) = a.2.fields.kept)
    fun _ => True := by
  refine sat_position_bind ((sat_trivial (accept .colon) r).bind fun _ r _ => ?_)
  refine (hnested r).bind fun a r ha => ?_
  exact sat_position_bind (sat_pure ⟨ha.legible, ha.fields_eq⟩)

theorem roundWithDescription_sat {e : Endpoint × Description} (h : e.2.Describes e.1) (r : Reader) :
    Sat (roundWithDescription nested e) r (fun a _ => match a with
      | .again s => s.2.Describes s.1
      | .done s => s.2.Describes s.1) fun _ => True := by
  refine (sat_trivial nextKeyword r).bind fun kind r _ => ?_
  split
  · exact sat_pure h
  · refine (bindingWithDescription_sat hnested r).bind fun a r ha => ?_
    refine (sat_trivial (accept .comma) r).bind fun _ r _ => sat_pure ?_
    exact h.pushBinding ha.1 ha.2
  · refine (sat_trivial putBack r).bind fun _ r _ => ?_
    refine (fieldWithValue_sat hnested r).bind fun a r ha => ?_
    refine (sat_trivial (accept .comma) r).bind fun _ r _ => sat_pure ?_
    exact h.pushField ha.1 ha.2.1 ha.2.2

end

theorem endpointWithDescription_sat (depth : Nat) (r : Reader) :
    Sat (endpointWithDescription depth) r (fun a _ => a.2.Describes a.1) fun _ => True := by
  induction depth generalizing r with
  | zero => exact sat_throw trivial
  | succ depth ih =>
    refine (sat_trivial (expectDelimiter .leftBrace "\x7b") r).bind fun _ r _ => ?_
    exact sat_repeatFrom (I := fun a _ => a.2.Describes a.1) Description.Describes.nil
      (fun a r h => (roundWithDescription_sat ih h r).mono fun a _ ha => by cases a <;> exact ha)
      trivial

/-- What is told is what was written for the endpoint of the option. -/
theorem optionWithDescription_sat (opts : Options) (r : Reader) : Sat (optionWithDescription opts) r
    (fun a _ => ∀ e, a.1.item.endpoint = some e → ∃ d, a.2 = some d ∧ d.Describes e)
    fun _ => True := by
  refine (sat_trivial (expectKeyword .kwOption) r).bind fun start r _ => ?_
  refine (sat_trivial optionName r).bind fun name r _ => ?_
  refine (sat_trivial (expectDelimiter .equals "=") r).bind fun _ r _ => ?_
  refine (sat_trivial (constant? opts.permissive) r).bind fun a r _ => ?_
  rcases a with ⟨_ | constant, p⟩
  · refine (sat_trivial get r).bind fun _ r _ => ?_
    refine (endpointWithDescription_sat _ r).bind fun a r ha => ?_
    refine (sat_trivial (finish start) r).bind fun notes r _ => sat_pure ?_
    rintro _ ⟨⟩
    exact ⟨_, rfl, ha⟩
  · exact (sat_trivial (finish start) r).bind fun notes r _ => sat_pure nofun

theorem option_of_described {opts : Options} {r r' : Reader} {o : Noted OptionSetting}
    {written : Option Description} (h : optionWithDescription opts r = .ok (o, written) r') :
    option opts r = .ok o r' := by
  rw [← fst_optionWithDescription, run_map, h]

theorem exists_described {opts : Options} {r r' : Reader} {o : Noted OptionSetting}
    (h : option opts r = .ok o r') :
    ∃ written, optionWithDescription opts r = .ok (o, written) r' := by
  rw [← fst_optionWithDescription, run_map] at h
  split at h
  · next a q hrun =>
    cases h
    exact ⟨a.2, hrun⟩
  · cases h

end Grammar

open Grammar

/-- Every option that has an endpoint keeps of what was written for it all but the bindings in values
and in other bindings: where there are none, nothing is lost. -/
theorem option_description {opts : Options} {r r' : Reader} {o : Noted OptionSetting} {x : Endpoint}
    (h : option opts r = .ok o r') (hx : o.item.endpoint = some x) :
    ∃ d, optionWithDescription opts r = .ok (o, some d) r' ∧ x.erase = d.endpoint ∧
      (d.prune = d ↔ d.isWhole = true) ∧
      ∀ (opts' : Options) (q q' : Reader) (p : Noted OptionSetting) (y : Endpoint) (e : Description),
        optionWithDescription opts' q = .ok (p, some e) q' → p.item.endpoint = some y →
          (y.erase = x.erase ↔ e.prune = d.prune) := by
  obtain ⟨written, hrun⟩ := exists_described h
  obtain ⟨d, hd, hdescribes⟩ := (optionWithDescription_sat opts r).ok hrun x hx
  obtain rfl : written = some d := hd
  refine ⟨d, hrun, hdescribes.erase_eq, d.prune_eq_self_iff, fun opts' q q' p y e hp hy => ?_⟩
  obtain ⟨_, he, hother⟩ := (optionWithDescription_sat opts' q).ok hp y hy
  cases he
  rw [hother.erase_eq, hdescribes.erase_eq]
  exact Description.endpoint_eq_iff hother.legible hdescribes.legible

/-- Of the option that is read from the start of a text: its endpoint without places, and what was
written for it. -/
def describedOption (text : String) : Option (Option Endpoint × Option Description) :=
  ((optionWithDescription { permissive := true }).run'
    (Reader.ofBytes (Utf8.encode text.toList) "")).map fun a =>
      (a.1.item.endpoint.map Endpoint.erase, a.2)

theorem exists_option {text : String} {x : Endpoint} {d : Description}
    (h : describedOption text = some (some x, some d)) : ∃ o y r',
      optionWithDescription { permissive := true } (Reader.ofBytes (Utf8.encode text.toList) "") =
        .ok (o, some d) r' ∧ o.item.endpoint = some y ∧ y.erase = x := by
  obtain ⟨⟨o, _⟩, hrun, ha⟩ := Option.map_eq_some_iff.1 h
  obtain ⟨hx, rfl⟩ := Prod.mk.inj ha
  obtain ⟨y, hy, herase⟩ := Option.map_eq_some_iff.1 hx
  obtain ⟨r', hok⟩ := Reading.exists_run hrun
  exact ⟨o, y, r', hok, hy, herase⟩

/-- In a value and in a binding fields are kept, and nothing is lost if there are only fields. -/
theorem option_description_sample : ∃ o x r',
    option { permissive := true } (Reader.ofBytes (Utf8.encode
        "option (x) = \x7ba \x7bb: 1\x7d additional_bindings \x7bc: d\x7d\x7d;".toList) "") =
      .ok o r' ∧ o.item.endpoint = some x ∧
    x.erase = { fields := [{ name := "a", constant := "\x7bb:1\x7d" }],
                bindings := [{ fields := [{ name := "c", constant := "d" }] }] } ∧
    ∃ d : Description, d.isWhole = true ∧
      ∀ (opts' : Options) (q q' : Reader) (p : Noted OptionSetting) (y : Endpoint)
        (e : Description), optionWithDescription opts' q = .ok (p, some e) q' →
          p.item.endpoint = some y → (y.erase = x.erase ↔ e.prune = d) := by
  have hrun : describedOption "option (x) = \x7ba \x7bb: 1\x7d additional_bindings \x7bc: d\x7d\x7d;" =
      some (some { fields := [{ name := "a", constant := "\x7bb:1\x7d" }],
                   bindings := [{ fields := [{ name := "c", constant := "d" }] }] },
            some { fields := .cons "a" (.group (.cons "b" (.constant "1") .nil) .nil) .nil,
                   bindings := .cons (.cons "c" (.constant "d") .nil) .nil .nil }) := by
    decide +kernel
  obtain ⟨o, x, r', h, hx, herase⟩ := exists_option hrun
  obtain ⟨d, hd, -, hwhole, hothers⟩ := option_description (option_of_described h) hx
  cases h.symm.trans hd
  have hpruned := hwhole.2 rfl
  rw [hpruned] at hothers
  exact ⟨o, x, r', option_of_described h, hx, herase, _, rfl, hothers⟩

/-- Two bindings in the value of a field: the entries in them differ, the endpoints do not. -/
theorem option_pruned : ∃ o p x y d e r' q',
    optionWithDescription { permissive := true } (Reader.ofBytes (Utf8.encode
        "option (x) = \x7ba: \x7bb: 1 additional_bindings \x7bc: 2\x7d\x7d\x7d;".toList) "") =
      .ok (o, some d) r' ∧ o.item.endpoint = some x ∧
    optionWithDescription { permissive := true } (Reader.ofBytes (Utf8.encode
        "option (x) = \x7ba: \x7bb: 1 additional_bindings \x7bc: 3\x7d\x7d\x7d;".toList) "") =
      .ok (p, some e) q' ∧ p.item.endpoint = some y ∧ d ≠ e ∧ x.erase = y.erase := by
  have hrun : describedOption
      "option (x) = \x7ba: \x7bb: 1 additional_bindings \x7bc: 2\x7d\x7d\x7d;" =
      some (some { fields := [{ name := "a", constant := "\x7bb:1\x7d" }] },
            some { fields := .cons "a" (.group (.cons "b" (.constant "1") .nil)
              (.cons (.cons "c" (.constant "2") .nil) .nil .nil)) .nil }) := by decide +kernel
  have hrun' : describedOption
      "option (x) = \x7ba: \x7bb: 1 additional_bindings \x7bc: 3\x7d\x7d\x7d;" =
      some (some { fields := [{ name := "a", constant := "\x7bb:1\x7d" }] },
            some { fields := .cons "a" (.group (.cons "b" (.constant "1") .nil)
              (.cons (.cons "c" (.constant "3") .nil) .nil .nil)) .nil }) := by decide +kernel
  obtain ⟨o, x, r', h, hx, herase⟩ := exists_option hrun
  obtain ⟨p, y, q', h', hy, herase'⟩ := exists_option hrun'
  exact ⟨o, p, x, y, _, _, r', q', h, hx, h', hy, by decide, herase.trans herase'.symm⟩

end ProtoIdl
