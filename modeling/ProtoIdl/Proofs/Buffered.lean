import ProtoIdl.Proofs.Text.Chunked
import ProtoIdl.Proofs.Text.Place
/-!
# A source is a cursor over the decoded text

A reader of characters is told by three indices into the characters of the octets: where it stands,
where it stood before the last character, and the mark. `Decoded.step` says what each call does to them.
A source keeps cursors instead (`Source.Shows`). A buffer keeps a part of the characters, and its indices
count from the first one it has kept (`Buffer.Shows`); it knows that there is no step to undo by comparing
positions, which works since no two characters have one offset (`Decoded.place_inj`). Main statement:
`calls_indexed`.
-/
namespace ProtoIdl

/-- A call on a reader of characters. -/
inductive Source.Call
  | peek
  | next
  | unread
  | mark
  | reset

/-- What a call answers if it does not fail. -/
inductive Source.Reply
  /-- The next character, or `none` at the end of the text. -/
  | character (c : Option Char)
  | place (p : Position)
  | done

open Source (Call Reply)

attribute [ext] Position

/-- Runs calls one after the other. One that fails does not end the run. -/
def runCalls {σ : Type} (step : Call → σ → Except Failure Reply × σ) :
    List Call → σ → List (Except Failure Reply) × σ
  | [], s => ([], s)
  | call :: rest, s =>
    let (reply, s) := step call s
    let (replies, s) := runCalls step rest s
    (reply :: replies, s)

/-- A call on a source. -/
def Source.step : Call → Source → Except Failure Reply × Source
  | .peek, s => ((s.peek.map .character).mapError .lexical, s)
  | .next, s =>
    match s.next with
    | .ok (c, s) => (.ok (.character c), s)
    | .error e => (.error (.lexical e), s)
  | .unread, s =>
    match s.unread with
    | some s => (.ok .done, s)
    | none => (.error (.misuse .unread), s)
  | .mark, s => (.ok (.place s.mark.current.position), s.mark)
  | .reset, s => (.ok .done, s.reset)

/-- A call on a buffer. -/
def Buffer.step : Call → Buffer → Except Failure Reply × Buffer
  | .peek, b => ((b.peek.1.map .character).mapError .lexical, b.peek.2)
  | .next, b => ((b.next.1.map .character).mapError .lexical, b.next.2)
  | .unread, b =>
    match b.unread with
    | some b => (.ok .done, b)
    | none => (.error (.misuse .unread), b)
  | .mark, b => (.ok (.place b.mark.position), b.mark)
  | .reset, b => (.ok .done, b.reset)

/-! ## Indices -/

/-- The characters of a text, and what is wrong behind them. -/
structure Decoded where
  file : String
  chars : List Char
  fault : Option Utf8.Fault

/-- The indices of a reader: of the next character, of the one before a step that can be undone, and of the
mark. -/
structure Indices where
  current : Nat := 0
  previous : Nat := 0
  marked : Nat := 0

namespace Decoded

def ofBytes (bytes : List UInt8) (file : String) : Decoded :=
  { file, chars := (Utf8.decode bytes).1, fault := (Utf8.decode bytes).2 }

/-- The coordinate of a character: the octets in front of it, the newlines there, and the characters behind
the last of them. -/
def place (t : Decoded) (i : Nat) : Position where
  file := t.file
  offset := (Utf8.encode (t.chars.take i)).length
  line := 1 + (t.chars.take i).count '\n'
  column := 1 + ((t.chars.take i).reverse.takeWhile (· ≠ '\n')).length

/-- The character at an index; behind the last one, the end of the text or the fault. -/
def look (t : Decoded) (i : Nat) : Except Failure Reply :=
  match t.chars[i]?, t.fault with
  | some c, _ => .ok (.character (some c))
  | none, none => .ok (.character none)
  | none, some fault => .error (.lexical ⟨.illFormed fault, t.place i⟩)

/-- What a call does to the indices. -/
def step (t : Decoded) : Call → Indices → Except Failure Reply × Indices
  | .peek, x => (t.look x.current, x)
  | .next, x =>
    (t.look x.current,
      if x.current < t.chars.length then { x with current := x.current + 1, previous := x.current }
      else x)
  | .unread, x =>
    if x.previous < x.current then (.ok .done, { x with current := x.previous })
    else (.error (.misuse .unread), x)
  | .mark, x => (.ok (.place (t.place x.current)), { x with marked := x.current, previous := x.current })
  | .reset, x => (.ok .done, { x with current := x.marked, previous := x.marked })

/-! ## Places -/

variable {t : Decoded} {i j : Nat}

/-- The beginning of the text. -/
def start (t : Decoded) : Cursor := { rest := t.chars, ending := t.fault, position := .first t.file }

/-- The coordinate is the one that moving over the characters in front leads to. -/
theorem place_eq (t : Decoded) (i : Nat) : (t.start.advance i).position = t.place i := by
  show (Position.first t.file).after (t.chars.take i) = t.place i
  refine Position.ext ?_ ?_ ?_ ?_
  · exact Position.file_after ..
  · exact (Position.offset_after ..).trans (Int.zero_add _)
  · exact Position.line_after ..
  · exact Position.column_after_first ..

/-- Characters are not empty, so no two of them have one place. -/
theorem place_inj (hi : i ≤ t.chars.length) (hj : j ≤ t.chars.length) (h : t.place i = t.place j) :
    i = j := by
  have hlt : ∀ {i j}, i < j → j ≤ t.chars.length → (t.place i).offset < (t.place j).offset := by
    intro i j hij hj
    obtain ⟨k, rfl⟩ := Nat.exists_eq_add_of_lt hij
    rw [← place_eq, ← place_eq, Nat.add_assoc, Cursor.advance_add]
    refine Cursor.offset_lt_advance (Nat.succ_pos k) fun hnil => ?_
    rw [Cursor.rest_advance, List.drop_eq_nil_iff] at hnil
    exact absurd hnil (by show ¬ t.chars.length ≤ i; omega)
  rcases Nat.lt_trichotomy i j with hij | hij | hij
  · exact absurd (h ▸ hlt hij hj) (Int.lt_irrefl _)
  · exact hij
  · exact absurd (h ▸ hlt hij hi) (Int.lt_irrefl _)

theorem place_succ {c : Char} (h : t.chars[i]? = some c) : t.place (i + 1) = (t.place i).advance c := by
  have hrest : (t.start.advance i).rest.take 1 = [c] := by
    rw [Cursor.rest_advance, List.take_one, List.head?_drop]
    exact congrArg Option.toList h
  rw [← place_eq, ← place_eq, Cursor.advance_add, Cursor.advance, hrest]
  rfl

theorem peek_eq (t : Decoded) (i : Nat) :
    ((t.start.advance i).peek.map Reply.character).mapError .lexical = t.look i := by
  unfold Cursor.peek look
  rw [Cursor.rest_advance, Cursor.ending_advance, place_eq, show t.start.rest = t.chars from rfl,
    show t.start.ending = t.fault from rfl, ← List.head?_drop]
  cases t.chars.drop i <;> cases t.fault <;> rfl

end Decoded

/-- One step at most can be undone, and all indices are in the text. -/
structure Indices.Within (x : Indices) (n : Nat) : Prop where
  undo : x.current = x.previous ∨ x.current = x.previous + 1
  current : x.current ≤ n
  marked : x.marked ≤ n

theorem Indices.Within.step {x : Indices} {t : Decoded} (h : x.Within t.chars.length) (call : Call) :
    (t.step call x).2.Within t.chars.length := by
  obtain ⟨hundo, hcurrent, hmarked⟩ := h
  cases call with
  | peek => exact ⟨hundo, hcurrent, hmarked⟩
  | next =>
    simp only [Decoded.step]
    split
    · next hlt => exact ⟨.inr rfl, hlt, hmarked⟩
    · exact ⟨hundo, hcurrent, hmarked⟩
  | unread =>
    simp only [Decoded.step]
    split
    · exact ⟨.inl rfl, by dsimp only; omega, hmarked⟩
    · exact ⟨hundo, hcurrent, hmarked⟩
  | mark => exact ⟨.inl rfl, hcurrent, hcurrent⟩
  | reset => exact ⟨.inl rfl, hmarked, hmarked⟩

/-- What one call keeps, a run keeps: a reader that answers as the indices do goes on doing so. -/
theorem runCalls_indexed {σ : Type} {step : Call → σ → Except Failure Reply × σ} {t : Decoded}
    {R : σ → Indices → Prop} (hstep : ∀ call s x, R s x → x.Within t.chars.length →
      (step call s).1 = (t.step call x).1 ∧ R (step call s).2 (t.step call x).2)
    (calls : List Call) {s : σ} {x : Indices} (hs : R s x) (hx : x.Within t.chars.length) :
    (runCalls step calls s).1 = (runCalls t.step calls x).1 ∧
      R (runCalls step calls s).2 (runCalls t.step calls x).2 := by
  induction calls generalizing s x with
  | nil => exact ⟨rfl, hs⟩
  | cons call rest ih =>
    obtain ⟨hreply, hnext⟩ := hstep call s x hs hx
    obtain ⟨hreplies, hrest⟩ := ih hnext (hx.step call)
    exact ⟨congrArg₂ List.cons hreply hreplies, hrest⟩

/-! ## Sources -/

/-- The cursors of a source stand at the indices. -/
structure Source.Shows (t : Decoded) (s : Source) (x : Indices) : Prop where
  current : s.current = t.start.advance x.current
  previous : s.previous = t.start.advance x.previous
  marked : s.marked = t.start.advance x.marked

theorem Indices.Within.unread_iff {x : Indices} {t : Decoded} (h : x.Within t.chars.length) :
    t.place x.current = t.place x.previous ↔ ¬ x.previous < x.current := by
  have hle : x.previous ≤ x.current ∧ x.current ≤ t.chars.length := by
    have := h.undo
    have := h.current
    omega
  constructor
  · intro hplace
    have := Decoded.place_inj hle.2 (by omega) hplace
    omega
  · intro hlt
    rw [Nat.le_antisymm (Nat.not_lt.1 hlt) hle.1]

theorem Source.Shows.step {t : Decoded} (call : Call) (s : Source) (x : Indices) (h : s.Shows t x)
    (hx : x.Within t.chars.length) : (s.step call).1 = (t.step call x).1 ∧
      (s.step call).2.Shows t (t.step call x).2 := by
  have hlook : (s.peek.map .character).mapError .lexical = t.look x.current := by
    rw [Source.peek, h.current, t.peek_eq]
  obtain ⟨hcurrent, hprevious, hmarked⟩ := h
  cases call with
  | peek => exact ⟨hlook, ⟨hcurrent, hprevious, hmarked⟩⟩
  | next =>
    simp only [Source.step, Decoded.step, ← hlook]
    cases hrest : t.chars.drop x.current with
    | nil =>
      have hend : ¬ x.current < t.chars.length := Nat.not_lt.2 (List.drop_eq_nil_iff.1 hrest)
      have hpeek : s.current.rest = [] := by rw [hcurrent]; exact hrest
      rw [if_neg hend]
      cases hending : s.current.ending <;>
        simp only [Source.next, Source.peek, Cursor.peek, hpeek, hending] <;>
          exact ⟨rfl, ⟨hcurrent, hprevious, hmarked⟩⟩
    | cons c more =>
      have hlt : x.current < t.chars.length := by
        by_contra hge
        rw [List.drop_of_length_le (Nat.not_lt.1 hge)] at hrest
        cases hrest
      have hpeek : s.peek = .ok (some c) := by
        have : s.current.rest = c :: more := by rw [hcurrent]; exact hrest
        simp only [Source.peek, Cursor.peek, this]
      rw [if_pos hlt, Source.next_of_peek hpeek, hpeek]
      refine ⟨rfl, ⟨?_, hcurrent, hmarked⟩⟩
      rw [Cursor.advance_add, ← hcurrent]
  | unread =>
    have hiff : s.current.position = s.previous.position ↔ ¬ x.previous < x.current := by
      rw [hcurrent, hprevious, t.place_eq, t.place_eq, hx.unread_iff]
    simp only [Source.step, Decoded.step, Source.unread, hiff]
    by_cases hlt : x.previous < x.current
    · simp only [hlt, not_true_eq_false, ↓reduceIte]
      exact ⟨trivial, ⟨hprevious, hprevious, hmarked⟩⟩
    · simp only [hlt, not_false_eq_true, ↓reduceIte]
      exact ⟨trivial, ⟨hcurrent, hprevious, hmarked⟩⟩
  | mark =>
    refine ⟨?_, ⟨hcurrent, hcurrent, hcurrent⟩⟩
    simp only [Source.step, Decoded.step, Source.current_mark, hcurrent, t.place_eq]
  | reset => exact ⟨rfl, ⟨hmarked, hmarked, hmarked⟩⟩

/-! ## Buffers -/

namespace Buffer

variable {bytes : List UInt8} {file : String} {b : Buffer} {x : Indices} {base : Nat} {seen : List Char}

/-- The buffer has decoded the characters `seen` and has let go of the first `base` of them. Its indices
and positions are those of `x`. -/
structure Keeps (bytes : List UInt8) (file : String) (b : Buffer) (x : Indices) (base : Nat)
    (seen : List Char) : Prop where
  decodes : b.Decodes bytes seen
  text : b.text = seen.drop base
  index : base + b.index = x.current
  markIndex : base + b.markIndex = x.marked
  base_le : base ≤ x.previous
  current_le : x.current ≤ seen.length
  marked_le : x.marked ≤ seen.length
  position : b.position = (Decoded.ofBytes bytes file).place x.current
  previous : b.previous = (Decoded.ofBytes bytes file).place x.previous
  marked : b.marked = (Decoded.ofBytes bytes file).place x.marked

/-- The buffer stands at the indices. -/
def Shows (bytes : List UInt8) (file : String) (b : Buffer) (x : Indices) : Prop :=
  ∃ base seen, b.Keeps bytes file x base seen

/-- Decoding more changes nothing else. -/
theorem Keeps.gains {b' : Buffer} {new : List Char} (h : b.Keeps bytes file x base seen)
    (hnew : b.Gains new b') (hdecodes : b'.Decodes bytes (seen ++ new)) :
    b'.Keeps bytes file x base (seen ++ new) where
  decodes := hdecodes
  text := by
    have := h.index
    have := h.current_le
    rw [hnew.text, h.text, List.drop_append_of_le_length (by omega)]
  index := by rw [hnew.index, h.index]
  markIndex := by rw [hnew.markIndex, h.markIndex]
  base_le := h.base_le
  current_le := by
    have := h.current_le
    rw [List.length_append]
    omega
  marked_le := by
    have := h.marked_le
    rw [List.length_append]
    omega
  position := hnew.position.trans h.position
  previous := hnew.previous.trans h.previous
  marked := hnew.marked.trans h.marked

/-- A filled buffer has the character at its index, or there is none. -/
theorem Keeps.fill (h : b.Keeps bytes file x base seen) : ∃ seen, b.fill.Keeps bytes file x base seen ∧
    b.fill.text[b.fill.index]? = (Utf8.decode bytes).1[x.current]? ∧
      (x.current < seen.length ∨
        seen = (Utf8.decode bytes).1 ∧ b.fill.fault = (Utf8.decode bytes).2) := by
  obtain ⟨new, hnew, hdecodes, hmore⟩ := h.decodes.fill
  have hkeeps := h.gains hnew hdecodes
  have hget : b.fill.text[b.fill.index]? = (seen ++ new)[x.current]? := by
    rw [hkeeps.text, List.getElem?_drop, hkeeps.index]
  refine ⟨_, hkeeps, ?_⟩
  by_cases hlt : x.current < (seen ++ new).length
  · obtain ⟨behind, hall⟩ := hdecodes.isPrefix
    refine ⟨?_, .inl hlt⟩
    rw [hget, ← hall, List.getElem?_append_left hlt]
  · have hle := h.current_le
    have hindex := h.index
    have hlength : b.text.length = seen.length - base := by rw [h.text, List.length_drop]
    rw [List.length_append] at hlt
    -- nothing at the index after filling: no character was left, none came, and so all were decoded
    rcases hmore with hmore | hmore | hmore
    · omega
    · exact absurd (List.length_pos_iff.2 hmore) (by omega)
    · generalize hseen : seen ++ new = all at hdecodes hget
      cases hdecodes with
      | partly _ _ _ hclosed => cases hclosed.symm.trans hmore
      | whole hfault => exact ⟨hget, .inr ⟨rfl, hfault⟩⟩

theorem peek_map (b : Buffer) : b.peek.2 = b.fill ∧ b.peek.1 =
    match b.fill.text[b.fill.index]?, b.fill.fault with
    | some c, _ => .ok (some c)
    | none, none => .ok none
    | none, some fault => .error ⟨.illFormed fault, b.fill.position⟩ := by
  unfold peek
  split <;> simp [*]

theorem Keeps.peek (h : b.Keeps bytes file x base seen) :
    (b.peek.1.map .character).mapError .lexical = (Decoded.ofBytes bytes file).look x.current := by
  obtain ⟨seen, hkeeps, hget, hend⟩ := h.fill
  rw [(peek_map b).2, Decoded.look, hget, hkeeps.position]
  cases hc : (Utf8.decode bytes).1[x.current]? with
  | some c => simp [Decoded.ofBytes, hc, Except.map, Except.mapError]
  | none =>
    rcases hend with hlt | ⟨-, hfault⟩
    · have := hkeeps.decodes.isPrefix.length_le
      rw [List.getElem?_eq_none_iff] at hc
      omega
    · simp only [Decoded.ofBytes, hc, hfault]
      cases (Utf8.decode bytes).2 <;> rfl

theorem Keeps.next (h : b.Keeps bytes file x base seen) :
    (b.next.1.map .character).mapError .lexical = (Decoded.ofBytes bytes file).look x.current ∧
      b.next.2.Shows bytes file ((Decoded.ofBytes bytes file).step .next x).2 := by
  obtain ⟨seen, hkeeps, hget, hend⟩ := h.fill
  have hpeek := h.peek
  obtain ⟨hstate, hreply⟩ := peek_map b
  have hpair : b.peek = (b.peek.1, b.fill) := by rw [← hstate]
  rw [hget] at hreply
  cases hc : (Utf8.decode bytes).1[x.current]? with
  | some c =>
    obtain ⟨hlt, -⟩ := List.getElem?_eq_some_iff.1 hc
    rw [hc] at hreply
    have hnext : b.next = (.ok (some c), { b.fill with
        index := b.fill.index + 1, position := b.fill.position.advance c
        previous := b.fill.position }) := by
      rw [Buffer.next, hpair, hreply]
    have hinside : x.current + 1 ≤ seen.length := by
      rcases hend with hlt' | ⟨rfl, -⟩ <;> omega
    rw [hnext, ← hpeek, hreply]
    refine ⟨rfl, base, seen, ?_⟩
    simp only [Decoded.step, Decoded.ofBytes, hlt, ↓reduceIte]
    exact {
      decodes := hkeeps.decodes.moved rfl rfl rfl rfl
      text := hkeeps.text
      index := by
        have := hkeeps.index
        dsimp only
        omega
      markIndex := hkeeps.markIndex
      base_le := by
        have := hkeeps.index
        dsimp only
        omega
      current_le := hinside
      marked_le := hkeeps.marked_le
      position := by
        rw [Decoded.ofBytes, Decoded.place_succ hc]
        exact congrArg (Position.advance · c) hkeeps.position
      previous := hkeeps.position
      marked := hkeeps.marked }
  | none =>
    have hge := List.getElem?_eq_none_iff.1 hc
    have hnext : b.next = b.peek := by
      rw [Buffer.next, hpair, hreply, hc]
      cases b.fill.fault <;> rfl
    rw [hnext, hstate]
    refine ⟨hpeek, base, seen, ?_⟩
    simp only [Decoded.step, Decoded.ofBytes, Nat.not_lt.2 hge, ↓reduceIte]
    exact hkeeps

theorem Keeps.unread (h : b.Keeps bytes file x base seen)
    (hx : x.Within (Decoded.ofBytes bytes file).chars.length) :
    b.unread = if x.previous < x.current then
      some { b with index := b.index - 1, position := b.previous } else none := by
  have hplace : b.position = b.previous ↔ ¬ x.previous < x.current := by
    rw [h.position, h.previous, hx.unread_iff]
  have hzero : b.index = 0 → ¬ x.previous < x.current := by
    have := h.index
    have := h.base_le
    omega
  unfold Buffer.unread
  by_cases hlt : x.previous < x.current
  · rw [if_pos hlt, if_neg]
    rintro (hindex | hposition)
    · exact hzero hindex hlt
    · exact hplace.1 hposition hlt
  · rw [if_neg hlt, if_pos (.inr (hplace.2 hlt))]

theorem Keeps.back (h : b.Keeps bytes file x base seen)
    (hx : x.Within (Decoded.ofBytes bytes file).chars.length) (hlt : x.previous < x.current) :
    ({ b with index := b.index - 1, position := b.previous } : Buffer).Keeps bytes file
      { x with current := x.previous } base seen where
  decodes := h.decodes.moved rfl rfl rfl rfl
  text := h.text
  index := by
    have := h.index
    have := h.base_le
    have := hx.undo
    dsimp only
    omega
  markIndex := h.markIndex
  base_le := h.base_le
  current_le := by
    have := h.current_le
    dsimp only
    omega
  marked_le := h.marked_le
  position := h.previous
  previous := h.previous
  marked := h.marked

/-- Letting go of characters moves the first one that is kept, and nothing else. -/
theorem Keeps.trim (h : b.Keeps bytes file x base seen) : ∃ base', base' ≤ x.current ∧
    b.trim.Decodes bytes seen ∧ b.trim.text = seen.drop base' ∧ base' + b.trim.index = x.current ∧
      b.trim.position = b.position := by
  have hindex := h.index
  unfold Buffer.trim
  split
  · refine ⟨x.current, Nat.le_refl _, h.decodes.moved rfl rfl rfl rfl, ?_, Nat.add_zero _, rfl⟩
    show b.text.drop b.index = _
    rw [h.text, List.drop_drop, hindex]
  · exact ⟨base, by omega, h.decodes, h.text, hindex, rfl⟩

theorem Keeps.mark (h : b.Keeps bytes file x base seen) :
    b.mark.Shows bytes file { x with marked := x.current, previous := x.current } := by
  obtain ⟨base', hle, hdecodes, htext, hindex, hposition⟩ := h.trim
  have hplace := hposition.trans h.position
  exact ⟨base', seen, {
    decodes := hdecodes.moved rfl rfl rfl rfl
    text := htext
    index := hindex
    markIndex := hindex
    base_le := hle
    current_le := h.current_le
    marked_le := h.current_le
    position := hplace
    previous := hplace
    marked := hplace }⟩

theorem Keeps.reset (h : b.Keeps bytes file x base seen) :
    b.reset.Keeps bytes file { x with current := x.marked, previous := x.marked } base seen where
  decodes := h.decodes.moved rfl rfl rfl rfl
  text := h.text
  index := h.markIndex
  markIndex := h.markIndex
  base_le := by
    have := h.markIndex
    dsimp only
    omega
  current_le := h.marked_le
  marked_le := h.marked_le
  position := h.marked
  previous := h.marked
  marked := h.marked

/-- A call does to a buffer what it does to the indices. -/
theorem Shows.step (call : Call) (b : Buffer) (x : Indices) (h : b.Shows bytes file x)
    (hx : x.Within (Decoded.ofBytes bytes file).chars.length) :
    (b.step call).1 = ((Decoded.ofBytes bytes file).step call x).1 ∧
      (b.step call).2.Shows bytes file ((Decoded.ofBytes bytes file).step call x).2 := by
  obtain ⟨base, seen, h⟩ := h
  cases call with
  | peek =>
    obtain ⟨seen', hkeeps, -⟩ := h.fill
    exact ⟨h.peek, base, seen', (peek_map b).1 ▸ hkeeps⟩
  | next => exact h.next
  | unread =>
    simp only [Buffer.step, Decoded.step, h.unread hx]
    by_cases hlt : x.previous < x.current
    · simp only [hlt, ↓reduceIte]
      exact ⟨trivial, base, seen, h.back hx hlt⟩
    · simp only [hlt, ↓reduceIte]
      exact ⟨trivial, base, seen, h⟩
  | mark =>
    refine ⟨?_, h.mark⟩
    obtain ⟨_, _, hmark⟩ := h.mark
    simp only [Buffer.step, Decoded.step, hmark.position]
  | reset => exact ⟨rfl, base, seen, h.reset⟩

end Buffer

/-! ## Runs -/

/-- The chunks that octets come in. Only the end of the octets is an empty chunk. -/
structure Feed (bytes : List UInt8) where
  chunks : List (List UInt8)
  flatten_chunks : chunks.flatten = bytes
  ne_nil : ∀ chunk ∈ chunks, chunk ≠ []

namespace Feed

theorem flatten_split (bytes : List UInt8) : (Buffer.split bytes).flatten = bytes := by
  fun_induction Buffer.split bytes with
  | case1 => rfl
  | case2 b rest ih => rw [List.flatten_cons, ih, List.cons_append, List.take_append_drop]

theorem ne_nil_of_mem_split (bytes : List UInt8) : ∀ chunk ∈ Buffer.split bytes, chunk ≠ [] := by
  fun_induction Buffer.split bytes with
  | case1 => nofun
  | case2 b rest ih => exact List.forall_mem_cons.2 ⟨List.cons_ne_nil _ _, ih⟩

/-- The octets of a file come in full chunks. -/
def ofFile (bytes : List UInt8) : Feed bytes where
  chunks := Buffer.split bytes
  flatten_chunks := flatten_split bytes
  ne_nil := ne_nil_of_mem_split bytes

instance (bytes : List UInt8) : Inhabited (Feed bytes) := ⟨ofFile bytes⟩

end Feed

/-- The characters are those of the longest well-formed beginning of the octets. -/
theorem Decoded.longest (bytes : List UInt8) (file : String) :
    Utf8.encode (ofBytes bytes file).chars <+: bytes ∧
      (∀ cs, Utf8.encode cs <+: bytes → cs <+: (ofBytes bytes file).chars) ∧
        ((ofBytes bytes file).fault = none ↔ Utf8.encode (ofBytes bytes file).chars = bytes) := by
  obtain ⟨rest, hb, -⟩ := Utf8.encode_decode bytes
  refine ⟨⟨rest, hb.symm⟩, ?_, Utf8.encode_of_decode, fun h => ?_⟩
  · rintro cs ⟨behind, rfl⟩
    simp only [ofBytes, Utf8.decode_encode_append]
    exact List.prefix_append ..
  · simp only [ofBytes] at h ⊢
    rw [← h, Utf8.decode_encode]

/-- Whatever octets are read, in whatever chunks they come and whatever is called in whatever order, a
source and a buffer answer as indices into the characters do, and stand where these say. -/
theorem calls_indexed (bytes : List UInt8) (file : String) (feed : Feed bytes)
    (calls : List Source.Call) :
    let text := Decoded.ofBytes bytes file
    let indexed := runCalls text.step calls {}
    let source := runCalls Source.step calls (Source.ofBytes bytes file)
    let buffer := runCalls Buffer.step calls (Buffer.ofChunks feed.chunks file)
    (Utf8.encode text.chars <+: bytes ∧ (∀ cs, Utf8.encode cs <+: bytes → cs <+: text.chars) ∧
        (text.fault = none ↔ Utf8.encode text.chars = bytes)) ∧
      (source.1 = indexed.1 ∧ source.2.current.position = text.place indexed.2.current ∧
        source.2.previous.position = text.place indexed.2.previous) ∧
      buffer.1 = indexed.1 ∧ buffer.2.position = text.place indexed.2.current ∧
        buffer.2.previous = text.place indexed.2.previous := by
  intro text indexed source buffer
  have hstart : ({} : Indices).Within text.chars.length := ⟨.inl rfl, Nat.zero_le _, Nat.zero_le _⟩
  have hfirst : Position.first file = text.place 0 := text.place_eq 0
  refine ⟨Decoded.longest bytes file, ?_, ?_⟩
  · have hsource : (Source.ofBytes bytes file).Shows text {} :=
      ⟨(Cursor.advance_zero _).symm, (Cursor.advance_zero _).symm, (Cursor.advance_zero _).symm⟩
    obtain ⟨hreplies, hshows⟩ := runCalls_indexed Source.Shows.step calls hsource hstart
    refine ⟨hreplies, ?_, ?_⟩
    · rw [← text.place_eq]
      exact congrArg Cursor.position hshows.current
    · rw [← text.place_eq]
      exact congrArg Cursor.position hshows.previous
  · have hbuffer : (Buffer.ofChunks feed.chunks file).Shows bytes file {} := ⟨0, [], {
      decodes := Buffer.decodes_ofChunks file feed.flatten_chunks feed.ne_nil
      text := rfl
      index := rfl
      markIndex := rfl
      base_le := Nat.le_refl 0
      current_le := Nat.le_refl 0
      marked_le := Nat.le_refl 0
      position := hfirst
      previous := hfirst
      marked := hfirst }⟩
    obtain ⟨hreplies, base, seen, hkeeps⟩ :=
      runCalls_indexed Buffer.Shows.step calls hbuffer hstart
    exact ⟨hreplies, hkeeps.position, hkeeps.previous⟩

end ProtoIdl
