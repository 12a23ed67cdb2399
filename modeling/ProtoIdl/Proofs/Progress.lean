import ProtoIdl.Proofs.Grammar.Rounds
import ProtoIdl.Proofs.Places
import ProtoIdl.Proofs.Token.Bounds
/-!
# Reading a file ends

Main statement: on octets that are UTF-8 the bounds on rounds and on nesting are never reached
(`parse_ends`). That is because every loop moves forward between two rounds (`Grammar.LoopsAdvance`)
and every reader that calls itself does so further down the text (`Grammar.CallsAdvance`); the loops
of the scanner have no use for more rounds than there are characters (`Scan.Bounded`).
-/
namespace ProtoIdl

/-- Fewer characters are left only further down the text. -/
theorem Cursor.Reaches.offset_lt {c d : Cursor} (h : c.Reaches d)
    (hlt : d.rest.length < c.rest.length) : c.position.offset < d.position.offset := by
  obtain ⟨n, rfl⟩ := h
  rw [rest_advance, List.length_drop] at hlt
  exact offset_lt_advance (by omega) (List.ne_nil_of_length_pos (by omega))

namespace Reading

variable {α β σ : Type} {n : Nat}

/-- Begun in a text without ill-formed octets and with at most `n` characters left, the round has
moved forward when the loop goes on. -/
def Advances (n : Nat) (x : Reading (Round σ α)) : Prop :=
  ∀ r r' s, r.edge.ending = none → r.edge.rest.length ≤ n → r.edge.rest.length < r.stream.rounds →
    x r = .ok (.again s) r' → r.edge.position.offset < r'.edge.position.offset

/-- The step `x`, refused as a round too many unless it begins behind the place `p`. -/
def behind (p : Position) (x : Reading α) : Reading α := fun r =>
  if p.offset < r.edge.position.offset then x r else .error .outOfRounds r

/-- The step, which is handed the place where it begins, is not out of rounds. -/
def EndsFrom (n : Nat) (x : Position → Reading α) : Prop :=
  ∀ r r', r.edge.ending = none → r.edge.rest.length ≤ n → r.edge.rest.length < r.stream.rounds →
    x r.edge.position r ≠ .error .outOfRounds r'

theorem Turns.advances {x : Reading (Round σ α)} (h : ∀ e, Turns e n x) : Advances n x := by
  intro r r' s he hn hr hx
  have hleft : r.Left r.edge r.edge.rest.length := ⟨he, .refl _, Nat.le_refl _, hr⟩
  obtain ⟨-, hagain⟩ := (h r.edge _ hn r hleft).ok hx
  obtain ⟨k, hk, hr'⟩ := hagain s rfl
  exact hr'.reached.offset_lt (Nat.lt_of_le_of_lt hr'.left hk)

/-- With fewer characters left than at `e` a reader stands behind it. -/
theorem Lasts.behind {e : Cursor} {x : Reading α} (h : Lasts e n x) (hn : n < e.rest.length) :
    Lasts e n (x.behind e.position) := by
  intro m hm r hr
  have hlt := hr.reached.offset_lt (Nat.lt_of_le_of_lt (Nat.le_trans hr.left hm) hn)
  exact (h m hm r hr).of_eq (if_pos hlt)

/-- It is enough that the step lasts when what it is handed is refused in front of its beginning. -/
theorem endsFrom_of_lasts {x : Position → Reading α}
    (h : ∀ e : Cursor, e.rest.length ≤ n → Lasts e e.rest.length (x e.position)) : EndsFrom n x := by
  intro r r' he hn hr hx
  have hleft : r.Left r.edge r.edge.rest.length := ⟨he, .refl _, Nat.le_refl _, hr⟩
  exact (h r.edge hn _ (Nat.le_refl _) r hleft).error hx rfl

end Reading

namespace Grammar

open Reading

/-- Between two rounds of a loop reading moves forward. A loop that reads what is nested `n` times
at most is asked for where at most `n` characters are left. -/
structure LoopsAdvance (opts : Options) : Prop where
  dotted : ∀ n name, Advances n (dottedRound name)
  endpoint : ∀ n read, Advances n (endpointRound (endpointAtMost n) read)
  stringList : ∀ n items, Advances n (stringListRound items)
  entries : ∀ n entries, Advances n (entriesRound (entriesAtMost n) entries)
  settings : ∀ n settings, Advances n (settingsRound opts settings)
  ranges : ∀ n ranges, Advances n (rangesRound ranges)
  reservedNames : ∀ n names, Advances n (reservedNamesRound names)
  body : ∀ n scope curly elements,
    Advances n (bodyRound opts (bodyAtMost opts n) scope curly elements)
  file : ∀ n f, Advances n (fileRound opts f)

/-- A reader that calls itself does so further down the text than where it begins: to refuse any
other call changes nothing. -/
structure CallsAdvance (opts : Options) : Prop where
  endpoint : ∀ n, EndsFrom n fun p => endpointWith ((endpointAtMost n).behind p)
  entries : ∀ n, EndsFrom n fun p => entriesWith ((entriesAtMost n).behind p)
  body : ∀ n scope, EndsFrom n fun p =>
    bodyWith opts (fun scope => (bodyAtMost opts n scope).behind p) scope

theorem loops_advance (opts : Options) : LoopsAdvance opts where
  dotted _ name := Turns.advances fun _ => turns_dottedRound name
  endpoint _ read := Turns.advances fun _ =>
    turns_endpointRound (fun _ hk => lasts_endpointAtMost _ hk) read
  stringList _ items := Turns.advances fun _ => turns_stringListRound items
  entries _ entries := Turns.advances fun _ =>
    turns_entriesRound (fun _ hk => lasts_entriesAtMost _ hk) entries
  settings _ settings := Turns.advances fun _ => turns_settingsRound opts settings
  ranges _ ranges := Turns.advances fun _ => turns_rangesRound ranges
  reservedNames _ names := Turns.advances fun _ => turns_reservedNamesRound names
  body _ scope curly elements := Turns.advances fun _ => turns_bodyRound
    (fun _ hk scope => lasts_bodyAtMost opts _ hk scope) opts scope curly elements
  file _ f := Turns.advances fun _ => turns_fileRound opts f

theorem calls_advance (opts : Options) : CallsAdvance opts where
  endpoint n := endsFrom_of_lasts fun _ he => (strides_endpointWith fun _ hk =>
    (lasts_endpointAtMost n (Nat.lt_of_lt_of_le hk he)).behind hk).lasts
  entries n := endsFrom_of_lasts fun _ he => (strides_entriesWith fun _ hk =>
    (lasts_entriesAtMost n (Nat.lt_of_lt_of_le hk he)).behind hk).lasts
  body n scope := endsFrom_of_lasts fun _ he => (strides_bodyWith opts (fun _ hk scope =>
    (lasts_bodyAtMost opts n (Nat.lt_of_lt_of_le hk he) scope).behind hk) scope).lasts

end Grammar

/-- More rounds than there are characters change nothing in a loop of the scanner, and so many it
has. -/
structure Scan.Bounded : Prop where
  lead : ∀ mode passed (s : Source) n, s.current.rest.length < n →
    s.lead mode n passed = s.lead mode (s.current.rest.length + 1) passed
  body : ∀ outer close latest (c : Cursor) n, c.rest.length < n →
    Scan.body outer close n latest c = Scan.body outer close (c.rest.length + 1) latest c
  literals : ∀ outer start latest (c : Cursor) n, c.rest ≠ [] → c.rest.length ≤ n →
    Scan.literals outer start n latest c = Scan.literals outer start c.rest.length latest c
  rounds : ∀ bytes file calls, let s := ((TokenStream.ofBytes bytes file).calls calls).2
    s.source.current.rest.length < s.rounds

theorem Scan.bounded : Scan.Bounded where
  lead mode passed _ _ h := Source.lead_congr mode passed h (Nat.lt_succ_self _)
  body outer close latest _ _ h := body_congr outer close latest h (Nat.lt_succ_self _)
  literals outer start latest _ _ hc h := literals_congr outer start latest hc h (Nat.le_refl _)
  rounds bytes file calls := TokenStream.length_lt_rounds_calls calls bytes file

/-- The first reader of a text without ill-formed octets. -/
theorem Reader.left_ofBytes {bytes : List UInt8} (file : String)
    (h : (Utf8.decode bytes).2 = none) : (Reader.ofBytes bytes file).Left
      (Cursor.ofBytes bytes file) (Cursor.ofBytes bytes file).rest.length where
  whole := h
  reached := edge_ofBytes bytes file ▸ .refl _
  left := edge_ofBytes bytes file ▸ Nat.le_refl _
  rounds := by
    rw [edge_ofBytes, rounds_ofBytes]
    exact Nat.lt_succ_self _

theorem parse_ne_outOfRounds (opts : Grammar.Options) (chars : List Char) (file : String) :
    parse opts (Utf8.encode chars) file ≠ .error .outOfRounds := by
  intro h
  obtain ⟨r, hr⟩ := parse_error h
  have hleft := Reader.left_ofBytes file (by rw [Utf8.decode_encode chars])
  exact (Grammar.lasts_file opts _ (Nat.le_refl _) _ hleft).error hr rfl

/-- Reading octets that are UTF-8 ends, with a file or with a failure that is not the lack of
rounds: the loops and the calls of the grammar move forward, and so do the loops of the scanner. -/
theorem parse_ends (opts : Grammar.Options) :
    (∀ chars file, (∃ f, parse opts (Utf8.encode chars) file = .ok f) ∨
      ∃ e, parse opts (Utf8.encode chars) file = .error e ∧ e ≠ .outOfRounds) ∧
    Grammar.LoopsAdvance opts ∧ Grammar.CallsAdvance opts ∧ Scan.Bounded := by
  refine ⟨fun chars file => ?_, Grammar.loops_advance opts, Grammar.calls_advance opts,
    Scan.bounded⟩
  cases h : parse opts (Utf8.encode chars) file with
  | ok f => exact .inl ⟨f, rfl⟩
  | error e =>
    refine .inr ⟨e, rfl, ?_⟩
    rintro rfl
    exact parse_ne_outOfRounds opts chars file h

/-- A text that is read to its end, and one that is refused. -/
theorem parse_ends_sample : (∃ f, parse {} sampleText "m.proto" = .ok f) ∧
    ∃ e, parse {} (Utf8.encode "message".toList) "m.proto" = .error e ∧ e ≠ .outOfRounds := by
  have hno : (parse {} (Utf8.encode "message".toList) "m.proto").toOption = none := by decide +kernel
  refine ⟨?_, ?_⟩
  · obtain ⟨f, hf, -⟩ := parse_sample
    exact ⟨f, hf⟩
  · rcases (parse_ends {}).1 "message".toList "m.proto" with ⟨f, hf⟩ | h
    · rw [hf] at hno
      cases hno
    · exact h

end ProtoIdl
