import ProtoIdl.Proofs.Progress
import ProtoIdl.Proofs.Token.Legible
/-!
# What reading a file can end in

A file that is read is UTF-8 and was read to its end, and a failure has a place. No step back is
taken without a step forward to undo: that is an invariant of reading (`steady`) for tokens, and for
characters it is how the scanner looks ahead (`Source.lookPast_eq`). Main statement:
`parse_outcomes`.
-/
namespace ProtoIdl

/-! ## Steps back -/

theorem Reader.unexpected_ne_misuse (r : Reader) (expected : String) (m : Misuse) :
    r.unexpected expected ≠ .misuse m := by
  unfold Reader.unexpected
  split <;> nofun

theorem Reader.not_misuse {r : Reader} {m m' : Misuse} (h : ∃ r', r.putBack = .ok r')
    (hr : r.putBack = .error m) : Failure.misuse m ≠ .misuse m' := by
  obtain ⟨r', h⟩ := h
  rw [h] at hr
  cases hr

theorem Failure.outOfRounds_ne_misuse (m : Misuse) : outOfRounds ≠ .misuse m := nofun

/-- A token that was just read can be put back. -/
def steady : Invariant where
  holds _ := True
  fresh r := ∃ r', r.putBack = .ok r'
  failure e := ∀ m, e ≠ .misuse m
  next _ _ := ⟨_, rfl⟩
  holds_of_fresh _ := trivial
  putBack _ _ := trivial
  unexpected expected _ := Reader.unexpected_ne_misuse _ expected
  misuse h hr _ := Reader.not_misuse h hr
  outOfRounds := Failure.outOfRounds_ne_misuse

theorem queueless_steady : steady.Queueless := fun _ _ h => h

/-- A failure that is neither a misuse nor the lack of rounds has a place. -/
theorem Failure.exists_position {e : Failure} (hm : ∀ m, e ≠ .misuse m) (ho : e ≠ .outOfRounds) :
    ∃ p, e.position? = some p := by
  cases e with
  | lexical e => exact ⟨e.position, rfl⟩
  | unexpected found expected p => exact ⟨p, rfl⟩
  | misuse m => exact absurd rfl (hm m)
  | outOfRounds => exact absurd rfl ho

/-- Looks behind the next character: reads it, looks and goes back. -/
def Source.lookPast (s : Source) : Except Failure (Option Char × Cursor) := do
  let (_, s) ← s.next.mapError .lexical
  let second ← s.peek.mapError .lexical
  match s.unread with
  | some s => return (second, s.current)
  | none => throw (.misuse .unread)

/-- A character that was read can be read again. -/
theorem Source.unread_next {s s' : Source} {x : Char} (h : s.next = .ok (some x, s')) :
    ∃ s'', s'.unread = some s'' ∧ s''.current = s.current := by
  unfold next at h
  split at h
  · cases h
  · cases h
  · next hpeek =>
    obtain ⟨-, rfl⟩ := Prod.mk.inj (Except.ok.inj h)
    have hne : s.current.rest ≠ [] := by
      intro hnil
      unfold Cursor.peek at hpeek
      rw [hnil] at hpeek
      split at hpeek <;> simp_all
    have hlt := Cursor.offset_lt_advance Nat.one_pos hne
    refine ⟨_, if_neg fun heq => ?_, rfl⟩
    have heq : (s.current.advance 1).position = s.current.position := heq
    rw [heq] at hlt
    exact absurd hlt (lt_irrefl _)

/-- In front of a character that is known the scanner looks ahead that way, and nothing else than
the octets can make it fail. -/
theorem Source.lookPast_eq {s : Source} {x : Char} (h : s.peek = .ok (some x)) :
    s.lookPast = (Scan.peekSecond s.current).mapError .lexical := by
  have hnext := next_of_peek h
  obtain ⟨s'', hun, hcur⟩ := unread_next hnext
  unfold lookPast Scan.peekSecond Source.peek
  rw [hnext]
  simp only [Except.mapError, bind, Except.bind, pure, Except.pure, hun, hcur]
  cases (s.current.advance 1).peek <;> rfl

/-! ## Reading to the end -/

namespace Grammar

open Reading

variable {e : Cursor} {n : Nat} {r : Reader}

/-- A round that is not the last one asks nothing of the place where it ends. -/
theorem sat_again {f : File} (hr : r.Left e n) : Sat (pure (.again f)) r
    (fun (a : Round File File) r' => r'.Left e n ∧ ∀ g, a = .done g → r'.edge.rest = [])
    fun _ => True := by
  refine sat_pure ⟨hr, ?_⟩
  rintro g ⟨⟩

/-- A round over a file is the last one at the end of the text only. -/
theorem fileRound_left (opts : Options) (f : File) (hr : r.Left e n) :
    Sat (fileRound opts f) r
      (fun a r' => r'.Left e n ∧ ∀ g, a = .done g → r'.edge.rest = []) fun _ => True := by
  have refuse {Q : Round File File → Reader → Prop} (r : Reader) :
      Sat (do let _ ← nextKeyword; reject Scope.file.expected) r Q fun _ => True :=
    (next_sat _).bind fun _ _ _ => reject_sat trivial
  refine (lasts_commentsAhead.goes hr).bind fun comments r hr =>
    ((peek_left rfl hr).mono_error fun _ _ => trivial).bind ?_
  rintro kind r ⟨hr, -, heof, -⟩
  split
  · exact sat_pure ⟨hr, fun _ _ => heof rfl⟩
  · exact ((lasts_next rfl).goes hr).bind fun _ _ hr => sat_again hr
  · split
    · exact refuse _
    · exact (strides_version.lasts.goes hr).bind fun _ _ hr =>
        ((lasts_attach _ _).goes hr).bind fun _ _ hr => sat_again hr
  · split
    · exact refuse _
    · next p _ =>
      have helement := strides_element (e := e) (n := n)
        (fun _ _ scope => lasts_body opts scope) opts true comments p
      exact (helement.lasts.goes hr).bind fun _ _ hr => sat_again hr

/-- A file that is read is read to the end of the text. -/
theorem file_left (opts : Options) (hr : r.Left e n) :
    Sat (file opts) r (fun _ r' => r'.Left e n ∧ r'.edge.rest = []) fun _ => True := by
  refine sat_repeatFrom (I := fun _ r => r.Left e n) hr (fun f r hr => ?_) trivial
  refine (fileRound_left opts f hr).mono ?_
  rintro (g | g) r ⟨hr, hdone⟩
  · exact hr
  · exact ⟨hr, hdone g rfl⟩

end Grammar

/-- Where no characters are left all octets are passed. -/
theorem Cursor.Reaches.offset_of_nil {bytes : List UInt8} {file : String} {c : Cursor}
    (hb : (Utf8.decode bytes).2 = none) (h : (ofBytes bytes file).Reaches c) (hc : c.rest = []) :
    c.position.offset = bytes.length := by
  obtain ⟨n, rfl⟩ := h
  have htake : (ofBytes bytes file).rest.take n = (Utf8.decode bytes).1 := by
    rw [rest_advance, List.drop_eq_nil_iff] at hc
    exact List.take_of_length_le hc
  rw [offset_advance, htake, Utf8.encode_of_decode hb]
  exact Int.zero_add _

/-! ## Outcomes -/

/-- Reading ends in one of two ways. A file is the whole of a text that is UTF-8: no octet is left. A
failure has a true place, unless the octets are not UTF-8 and reading does not end; none is a step
back that nothing preceded. In between every integer has a first character and every lone sign is
a delimiter, and a character read to look ahead can be given back. -/
theorem parse_outcomes (opts : Grammar.Options) (bytes : List UInt8) (file : String) :
    (∀ f, parse opts bytes file = .ok f → (∃ chars, bytes = Utf8.encode chars) ∧
      (parseWith opts bytes file).2.edge.position.offset = bytes.length) ∧
    (∀ e, parse opts bytes file = .error e → (∀ m, e ≠ .misuse m) ∧
      (e = .outOfRounds ∧ (Utf8.decode bytes).2 ≠ none ∨
        ∃ p, e.position? = some p ∧ p.TrueIn bytes file)) ∧
    (∀ calls, ∀ t ∈ ((TokenStream.ofBytes bytes file).calls calls).1, t.Legible) ∧
    ∀ (s : Source) x, s.peek = .ok (some x) →
      s.lookPast = (Scan.peekSecond s.current).mapError .lexical := by
  refine ⟨fun f hf => ?_, fun e he => ?_, fun calls => TokenStream.legible_calls calls _,
    fun s x => Source.lookPast_eq⟩
  · obtain ⟨r, hr⟩ := parse_ok hf
    have hb : (Utf8.decode bytes).2 = none :=
      (Grammar.file_charted opts (Grammar.charted_ofBytes bytes file)).ok hr
    obtain ⟨hleft, hnil⟩ := (Grammar.file_left opts (Reader.left_ofBytes file hb)).ok hr
    have hreader : (parseWith opts bytes file).2 = r := by rw [parseWith, Reading.outcome, hr]
    refine ⟨⟨_, (Utf8.encode_of_decode hb).symm⟩, ?_⟩
    rw [hreader]
    exact hleft.reached.offset_of_nil hb hnil
  · obtain ⟨r, hr⟩ := parse_error he
    have hm : ∀ m, e ≠ .misuse m :=
      (Grammar.keeps_file queueless_steady opts _ trivial).error hr
    refine ⟨hm, ?_⟩
    by_cases ho : e = .outOfRounds
    · refine .inl ⟨ho, fun hb => ?_⟩
      exact (Grammar.lasts_file opts _ (Nat.le_refl _) _ (Reader.left_ofBytes file hb)).error hr ho
    · obtain ⟨p, hp⟩ := Failure.exists_position hm ho
      have hplaced := (Grammar.file_charted opts (Grammar.charted_ofBytes bytes file)).error hr
      exact .inr ⟨p, hp, (hplaced p hp).trueIn⟩

/-- A file, and a text that ends within a word. -/
theorem parse_outcomes_sample :
    (∃ f, parse {} sampleText "m.proto" = .ok f ∧
      (parseWith {} sampleText "m.proto").2.edge.position.offset = sampleText.length) ∧
    ∃ e p, parse {} (sampleText.take 6) "m.proto" = .error e ∧ e.position? = some p ∧
      p.TrueIn (sampleText.take 6) "m.proto" := by
  refine ⟨?_, ?_⟩
  · obtain ⟨f, hf, -⟩ := parse_sample
    exact ⟨f, hf, ((parse_outcomes {} sampleText "m.proto").1 f hf).2⟩
  · have hno : (parse {} (sampleText.take 6) "m.proto").toOption = none := by decide +kernel
    have hb : (Utf8.decode (sampleText.take 6)).2 = none := by decide +kernel
    cases he : parse {} (sampleText.take 6) "m.proto" with
    | ok f =>
      rw [he] at hno
      cases hno
    | error e =>
      rcases ((parse_outcomes {} (sampleText.take 6) "m.proto").2.1 e he).2 with ⟨-, h⟩ | ⟨p, hp⟩
      · exact absurd hb h
      · exact ⟨e, p, rfl, hp⟩

end ProtoIdl
