import ProtoIdl.Proofs.Text.Encoding
import ProtoIdl.Text.Buffer
/-!
# Decoding octets in chunks

Decoding is from left to right, so it may stop behind any character and go on there
(`decode_encode_append`). What a chunk gives is therefore right for all octets: its characters are the next
ones (`decodePiece_more`), and a fault in it stays one, whatever follows (`decode_append_of_fault`).
`Buffer.Decodes` is the invariant of a buffer that follows, and `Buffer.Decodes.fill` says that a buffer
which has no character to look at after it was filled has decoded all octets.
-/
namespace ProtoIdl

namespace Utf8

/-- The octets in front of which decoding stops are those behind the octets of the characters. -/
theorem exists_rest (bytes : List UInt8) : ∃ rest,
    bytes.drop ((decode bytes).1.flatMap String.utf8EncodeChar).length = rest ∧
      bytes = encode (decode bytes).1 ++ rest ∧ decode rest = ([], (decode bytes).2) := by
  obtain ⟨rest, hb, hr⟩ := encode_decode bytes
  refine ⟨rest, ?_, hb, hr⟩
  exact (congrArg (List.drop _) hb).trans List.drop_left

/-- An octet or a sequence that is wrong stays wrong, unless it was cut. -/
theorem decode_append_of_fault {rest : List UInt8} {f : Fault} (h : decode rest = ([], some f))
    (hf : f ≠ .unexpectedEnd) (more : List UInt8) : decode (rest ++ more) = ([], some f) := by
  revert h
  fun_cases decode rest <;> intro h
  all_goals
    simp only [Prod.mk.injEq, List.cons_ne_nil, Option.some.injEq, true_and, false_and, reduceCtorEq,
      and_false] at h
  all_goals
    subst h
    first
      | exact absurd rfl hf
      | rw [decode.eq_def]; simp [*]

/-- The last chunk gives what is left of the text. -/
theorem decodePiece_last (bytes : List UInt8) :
    (decodePiece true bytes).chars = (decode bytes).1 ∧
      (decodePiece true bytes).fault = (decode bytes).2 := by
  unfold decodePiece
  cases hf : (decode bytes).2 <;> simp [hf]

/-- Another chunk gives the characters of its octets but for those at its end, or a fault that stays
one whatever follows. -/
theorem decodePiece_more (bytes : List UInt8) :
    (decodePiece false bytes).fault = none ∧
        bytes = encode (decodePiece false bytes).chars ++ (decodePiece false bytes).held ∨
      ∃ f, (decodePiece false bytes).fault = some f ∧
        ∀ more, decode (bytes ++ more) = ((decodePiece false bytes).chars, some f) := by
  obtain ⟨rest, hrest, hb, hd⟩ := exists_rest bytes
  simp only [decodePiece, hrest]
  cases hf : (decode bytes).2 with
  | none =>
    rw [hf] at hd
    refine .inl ⟨rfl, ?_⟩
    rw [eq_nil_of_decode hd] at hb
    exact hb
  | some f =>
    rw [hf] at hd
    by_cases hw : waits f rest = true
    · simp only [hw, Bool.not_false, Bool.and_self, ↓reduceIte]
      exact .inl ⟨trivial, hb⟩
    · simp only [hw, Bool.not_false, Bool.and_false, Bool.false_eq_true, ↓reduceIte]
      refine .inr ⟨f, rfl, fun more => ?_⟩
      have hcut : f ≠ .unexpectedEnd := by
        rintro rfl
        exact hw rfl
      conv => lhs; rw [hb]
      rw [List.append_assoc, decode_encode_append, decode_append_of_fault hd hcut, List.append_nil]

end Utf8

namespace Buffer

variable {bytes : List UInt8} {b : Buffer} {seen : List Char}

/-- The buffer has decoded the characters `seen` of the octets. -/
inductive Decodes (bytes : List UInt8) (b : Buffer) : List Char → Prop
  /-- The octets behind them are held back or come in the next chunks. -/
  | partly {seen : List Char} (hb : bytes = Utf8.encode seen ++ (b.held ++ b.chunks.flatten))
    (hchunks : ∀ chunk ∈ b.chunks, chunk ≠ []) (hfault : b.fault = none)
    (hclosed : b.isClosed = false) : Decodes bytes b seen
  /-- These are all characters. -/
  | whole (hfault : b.fault = (Utf8.decode bytes).2) (hclosed : b.isClosed = true) :
    Decodes bytes b (Utf8.decode bytes).1

theorem decodes_ofChunks {chunks : List (List UInt8)} (file : String) (hb : chunks.flatten = bytes)
    (hchunks : ∀ chunk ∈ chunks, chunk ≠ []) : (ofChunks chunks file).Decodes bytes [] :=
  .partly hb.symm hchunks rfl rfl

/-- The characters decoded are the first ones of the text. -/
theorem Decodes.isPrefix (h : b.Decodes bytes seen) : seen <+: (Utf8.decode bytes).1 := by
  cases h with
  | partly hb =>
    rw [hb, Utf8.decode_encode_append]
    exact List.prefix_append ..
  | whole => exact List.prefix_rfl

/-- What was decoded does not depend on where the buffer stands. -/
theorem Decodes.moved {b' : Buffer} (h : b.Decodes bytes seen) (hchunks : b'.chunks = b.chunks)
    (hheld : b'.held = b.held) (hfault : b'.fault = b.fault) (hclosed : b'.isClosed = b.isClosed) :
    b'.Decodes bytes seen := by
  cases h with
  | partly hb hne hf hc =>
    exact .partly (by rw [hheld, hchunks, ← hb]) (hchunks ▸ hne) (hfault.trans hf) (hclosed.trans hc)
  | whole hf hc => exact .whole (hfault.trans hf) (hclosed.trans hc)

/-- `b'` is `b` with the characters `new` decoded. -/
structure Gains (b : Buffer) (new : List Char) (b' : Buffer) : Prop where
  text : b'.text = b.text ++ new
  index : b'.index = b.index
  markIndex : b'.markIndex = b.markIndex
  position : b'.position = b.position
  previous : b'.previous = b.previous
  marked : b'.marked = b.marked

theorem Gains.refl (b : Buffer) : b.Gains [] b := ⟨by simp, rfl, rfl, rfl, rfl, rfl⟩

theorem Gains.trans {b' b'' : Buffer} {new more : List Char} (h : b.Gains new b')
    (h' : b'.Gains more b'') : b.Gains (new ++ more) b'' where
  text := by rw [h'.text, h.text, List.append_assoc]
  index := h'.index.trans h.index
  markIndex := h'.markIndex.trans h.markIndex
  position := h'.position.trans h.position
  previous := h'.previous.trans h.previous
  marked := h'.marked.trans h.marked

/-- Behind the last chunk comes the end of the octets. -/
theorem Decodes.receive_end (h : b.Decodes bytes seen) (hclosed : b.isClosed = false)
    (hchunks : b.chunks = []) : ∃ new, b.Gains new (b.receive [] []) ∧
      (b.receive [] []).Decodes bytes (seen ++ new) := by
  cases h with
  | whole hfault hc => cases hclosed.symm.trans hc
  | partly hb =>
    rw [hchunks, List.flatten_nil, List.append_nil] at hb
    obtain ⟨hchars, hfault⟩ := Utf8.decodePiece_last (b.held ++ [])
    rw [List.append_nil] at hchars hfault
    have hall : Utf8.decode bytes = (seen ++ (Utf8.decode b.held).1, (Utf8.decode b.held).2) := by
      rw [hb, Utf8.decode_encode_append]
    refine ⟨(Utf8.decode b.held).1, ⟨?_, rfl, rfl, rfl, rfl, rfl⟩, ?_⟩
    · simp only [receive, List.isEmpty_nil, List.append_nil, hchars]
    · rw [show seen ++ (Utf8.decode b.held).1 = (Utf8.decode bytes).1 from (congrArg Prod.fst hall).symm]
      refine .whole ?_ rfl
      simp only [receive, List.isEmpty_nil, List.append_nil, hfault, hall]

theorem Decodes.receive_chunk {chunk : List UInt8} {rest : List (List UInt8)}
    (h : b.Decodes bytes seen) (hclosed : b.isClosed = false) (hchunks : b.chunks = chunk :: rest) :
    ∃ new, b.Gains new (b.receive chunk rest) ∧
      (b.receive chunk rest).Decodes bytes (seen ++ new) := by
  cases h with
  | whole hfault hc => cases hclosed.symm.trans hc
  | partly hb hne =>
    rw [hchunks] at hne
    have hempty : chunk.isEmpty = false := by simpa using hne chunk List.mem_cons_self
    have hrest : ∀ c ∈ rest, c ≠ [] := fun c hc => hne c (List.mem_cons_of_mem _ hc)
    rw [hchunks, List.flatten_cons, ← List.append_assoc b.held] at hb
    refine ⟨(Utf8.decodePiece false (b.held ++ chunk)).chars, ⟨?_, rfl, rfl, rfl, rfl, rfl⟩, ?_⟩
    · simp only [receive, hempty]
    -- an octet that is wrong ends the text here, whatever the chunks behind it hold
    rcases Utf8.decodePiece_more (b.held ++ chunk) with ⟨hfault, hdata⟩ | ⟨f, hfault, hdata⟩
    · refine .partly ?_ hrest ?_ ?_
      · simp only [receive, hempty]
        rw [Utf8.encode_append, List.append_assoc, ← List.append_assoc (Utf8.encode _) _ rest.flatten,
          ← hdata]
        exact hb
      · simp only [receive, hempty, hfault]
      · simp only [receive, hempty, hfault, Bool.false_or, Option.isSome_none]
    · have hall : Utf8.decode bytes =
          (seen ++ (Utf8.decodePiece false (b.held ++ chunk)).chars, some f) := by
        rw [hb, Utf8.decode_encode_append, hdata]
      rw [show seen ++ _ = (Utf8.decode bytes).1 from (congrArg Prod.fst hall).symm]
      refine .whole ?_ ?_
      · simp only [receive, hempty, hfault, hall]
      · simp only [receive, hempty, hfault, Bool.false_or, Option.isSome_some]

/-- Reading chunks goes on until there are new characters or all octets were decoded. -/
theorem Decodes.fillFrom {chunks : List (List UInt8)} (h : b.Decodes bytes seen)
    (hchunks : b.chunks = chunks) : ∃ new, b.Gains new (b.fillFrom chunks) ∧
      (b.fillFrom chunks).Decodes bytes (seen ++ new) ∧
        (new = [] → (b.fillFrom chunks).isClosed = true) := by
  induction chunks generalizing b seen with
  | nil =>
    unfold Buffer.fillFrom
    cases hclosed : b.isClosed with
    | true => exact ⟨[], .refl b, by simpa using h, fun _ => hclosed⟩
    | false =>
      obtain ⟨new, hnew, hdecodes⟩ := h.receive_end hclosed hchunks
      exact ⟨new, hnew, hdecodes, fun _ => rfl⟩
  | cons chunk rest ih =>
    unfold Buffer.fillFrom
    cases hclosed : b.isClosed with
    | true => exact ⟨[], .refl b, by simpa using h, fun _ => hclosed⟩
    | false =>
      obtain ⟨new, hnew, hdecodes⟩ := h.receive_chunk hclosed hchunks
      have hlength : (b.receive chunk rest).text.length = b.text.length ↔
          new = [] := by simp [hnew.text]
      simp only [Bool.false_eq_true, ↓reduceIte, hlength]
      split
      · next hnil =>
        obtain ⟨more, hmore, hdecodes', hend⟩ := ih hdecodes rfl
        subst hnil
        rw [List.append_nil] at hdecodes'
        exact ⟨more, hnew.trans hmore, hdecodes', hend⟩
      · next hne => exact ⟨new, hnew, hdecodes, fun h => absurd h hne⟩

/-- A buffer that was filled has a character to look at, or all octets were decoded. -/
theorem Decodes.fill (h : b.Decodes bytes seen) : ∃ new, b.Gains new b.fill ∧
    b.fill.Decodes bytes (seen ++ new) ∧ (b.index < b.text.length ∨ new ≠ [] ∨ b.fill.isClosed) := by
  unfold Buffer.fill
  split
  · next hlt => exact ⟨[], .refl b, by simpa using h, .inl hlt⟩
  · obtain ⟨new, hnew, hdecodes, hend⟩ := h.fillFrom rfl
    exact ⟨new, hnew, hdecodes, .inr (Decidable.or_iff_not_imp_left.2 fun h => hend (by simpa using h))⟩

end Buffer

end ProtoIdl
