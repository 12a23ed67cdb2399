import ProtoIdl.Proofs.Text.Encoding
import ProtoIdl.Text.Source
import Mathlib.Data.List.Induction
/-!
# True coordinates

`Position.TrueIn` states in octets what a position says: its offset ends a run of whole characters,
its line counts the newlines before it, and its column the characters behind the last of them.
A cursor that was moved over characters from the beginning of the octets stands at a true
coordinate (`Cursor.Reaches.trueIn`), and the further it is moved the larger its offset is.
-/
namespace ProtoIdl

namespace Position

/-- `p` is the coordinate of a place in the octets of a file. -/
def TrueIn (bytes : List UInt8) (file : String) (p : Position) : Prop :=
  ∃ before : List Char, Utf8.encode before <+: bytes ∧ p.file = file ∧
    p.offset = (Utf8.encode before).length ∧
    p.line = 1 + (bytes.take p.offset.toNat).count 10 ∧
    p.column = 1 + (before.reverse.takeWhile (· ≠ '\n')).length

theorem offset_advance (p : Position) (c : Char) : (p.advance c).offset = p.offset + c.utf8Size := by
  simp only [advance]
  split <;> rfl

theorem line_advance (p : Position) (c : Char) :
    (p.advance c).line = if c = '\n' then p.line + 1 else p.line := by
  simp only [advance]
  split <;> rfl

theorem column_advance (p : Position) (c : Char) :
    (p.advance c).column = if c = '\n' then 1 else p.column + 1 := by
  simp only [advance]
  split <;> rfl

theorem file_after (p : Position) (cs : List Char) : (p.after cs).file = p.file := by
  induction cs generalizing p with
  | nil => rfl
  | cons c cs ih => rw [after_cons, ih, file_advance]

theorem offset_after (p : Position) (cs : List Char) :
    (p.after cs).offset = p.offset + (Utf8.encode cs).length := by
  induction cs generalizing p with
  | nil => simp
  | cons c cs ih =>
    rw [after_cons, ih, offset_advance, Utf8.encode_cons, List.length_append,
      String.length_utf8EncodeChar]
    push_cast
    omega

theorem line_after (p : Position) (cs : List Char) :
    (p.after cs).line = p.line + cs.count '\n' := by
  induction cs generalizing p with
  | nil => simp
  | cons c cs ih =>
    rw [after_cons, ih, line_advance, List.count_cons]
    by_cases h : c = '\n'
    · simp [h]
      omega
    · simp [h]

/-- The column counts the characters behind the last newline. -/
theorem column_after_first (file : String) (cs : List Char) :
    ((first file).after cs).column = 1 + (cs.reverse.takeWhile (· ≠ '\n')).length := by
  induction cs using List.reverseRecOn with
  | nil => rfl
  | append_singleton cs c ih =>
    rw [after_append, after_cons, after_nil, column_advance, ih, List.reverse_append]
    by_cases h : c = '\n'
    · simp [h]
    · simp [h]
      omega

end Position

namespace Cursor

/-- `d` is `c` moved over some characters. -/
def Reaches (c d : Cursor) : Prop := ∃ n, d = c.advance n

theorem Reaches.refl (c : Cursor) : c.Reaches c := ⟨0, by simp⟩

theorem Reaches.trans {c d e : Cursor} : c.Reaches d → d.Reaches e → c.Reaches e
  | ⟨m, hm⟩, ⟨n, hn⟩ => ⟨m + n, by rw [hn, hm, advance_add]⟩

theorem reaches_advance (c : Cursor) (n : Nat) : c.Reaches (c.advance n) := ⟨n, rfl⟩

theorem reaches_atEnd (c : Cursor) : c.Reaches c.atEnd := ⟨_, rfl⟩

theorem Reaches.ending_eq {c d : Cursor} : c.Reaches d → d.ending = c.ending
  | ⟨_, h⟩ => by rw [h, ending_advance]

theorem Reaches.length_le {c d : Cursor} : c.Reaches d → d.rest.length ≤ c.rest.length
  | ⟨n, h⟩ => by simp [h]

theorem offset_advance (c : Cursor) (n : Nat) :
    (c.advance n).position.offset = c.position.offset + (Utf8.encode (c.rest.take n)).length :=
  Position.offset_after _ _

theorem Reaches.offset_le {c d : Cursor} : c.Reaches d → c.position.offset ≤ d.position.offset
  | ⟨n, h⟩ => by
    rw [h, offset_advance]
    omega

/-- Characters are not empty: moving over one makes the offset larger. -/
theorem offset_lt_advance {c : Cursor} {n : Nat} (hn : 0 < n) (hc : c.rest ≠ []) :
    c.position.offset < (c.advance n).position.offset := by
  obtain ⟨char, rest, hr⟩ := List.exists_cons_of_ne_nil hc
  obtain ⟨m, rfl⟩ : ∃ m, n = m + 1 := ⟨n - 1, by omega⟩
  have hpos := char.utf8Size_pos
  rw [offset_advance, hr, List.take_succ_cons, Utf8.encode_cons, List.length_append,
    String.length_utf8EncodeChar]
  push_cast
  omega

theorem ofBytes_encode (chars : List Char) (file : String) :
    ofBytes (Utf8.encode chars) file =
      { rest := chars, ending := none, position := Position.first file } := by
  rw [ofBytes, Utf8.decode_encode]

/-- A place in a text parts it. -/
theorem Reaches.split {chars : List Char} {file : String} {c : Cursor} :
    (ofBytes (Utf8.encode chars) file).Reaches c →
      ∃ before, chars = before ++ c.rest ∧ c.position = (Position.first file).after before
  | ⟨n, h⟩ => by
    rw [h, ofBytes_encode]
    exact ⟨chars.take n, (List.take_append_drop n chars).symm, rfl⟩

theorem position_atEnd (c : Cursor) : c.atEnd.position = c.position.after c.rest :=
  congrArg c.position.after (List.take_length ..)

/-- The end of a text is behind all of its characters. -/
theorem Reaches.position_atEnd {chars : List Char} {file : String} {c : Cursor}
    (h : (ofBytes (Utf8.encode chars) file).Reaches c) :
    c.atEnd.position = (Position.first file).after chars := by
  obtain ⟨before, rfl, hpos⟩ := h.split
  rw [Cursor.position_atEnd, hpos, Position.after_append]

/-- Lines are counted forward. -/
theorem Reaches.line_le {c d : Cursor} : c.Reaches d → c.position.line ≤ d.position.line
  | ⟨n, h⟩ => by
    have hline : d.position.line = c.position.line + (c.rest.take n).count '\n' := by
      rw [h]
      exact Position.line_after _ _
    omega

/-- What is reached from the beginning of a file stands at a true coordinate. -/
theorem Reaches.trueIn {bytes : List UInt8} {file : String} {c : Cursor} :
    (ofBytes bytes file).Reaches c → c.position.TrueIn bytes file
  | ⟨n, h⟩ => by
    obtain ⟨rest, hb, -⟩ := Utf8.encode_decode bytes
    have hpre : Utf8.encode ((Utf8.decode bytes).1.take n) <+: bytes := by
      refine ⟨Utf8.encode ((Utf8.decode bytes).1.drop n) ++ rest, ?_⟩
      rw [← List.append_assoc, ← Utf8.encode_append, List.take_append_drop, ← hb]
    have hp : c.position = (Position.first file).after ((Utf8.decode bytes).1.take n) := by
      rw [h]
      rfl
    have ho : c.position.offset = (Utf8.encode ((Utf8.decode bytes).1.take n)).length := by
      rw [hp, Position.offset_after]
      simp [Position.first]
    refine ⟨_, hpre, ?_, ho, ?_, ?_⟩
    · rw [hp, Position.file_after]
      rfl
    · rw [ho, Int.toNat_natCast, ← List.prefix_iff_eq_take.1 hpre, Utf8.count_encode, hp,
        Position.line_after]
      rfl
    · rw [hp, Position.column_after_first]

/-! ## The characters between two cursors -/

section
variable {c d e : Cursor} {u v : List Char}

/-- The characters from `c` to `d` are `w`. -/
def Covers (c : Cursor) (w : List Char) (d : Cursor) : Prop :=
  d = c.advance w.length ∧ c.rest = w ++ d.rest

theorem Covers.refl (c : Cursor) : c.Covers [] c := ⟨(advance_zero c).symm, rfl⟩

theorem Covers.trans (h : c.Covers u d) (h' : d.Covers v e) : c.Covers (u ++ v) e := by
  obtain ⟨rfl, hu⟩ := h
  obtain ⟨rfl, hv⟩ := h'
  refine ⟨by rw [List.length_append, advance_add], ?_⟩
  rw [hu, hv, List.append_assoc]

theorem Covers.reaches (h : c.Covers u d) : c.Reaches d := ⟨_, h.1⟩

theorem covers_of_prefix (h : u <+: c.rest) : c.Covers u (c.advance u.length) := by
  obtain ⟨more, hmore⟩ := h
  exact ⟨rfl, by rw [rest_advance, ← hmore, List.drop_left]⟩

theorem covers_one {x : Char} {more : List Char} (h : c.rest = x :: more) :
    c.Covers [x] (c.advance 1) :=
  covers_of_prefix ⟨more, h.symm⟩

theorem Covers.split (h : c.Covers (u ++ v) d) : ∃ e, c.Covers u e ∧ e.Covers v d := by
  obtain ⟨rfl, hw⟩ := h
  rw [List.append_assoc] at hw
  have hu := covers_of_prefix ⟨_, hw.symm⟩
  refine ⟨_, hu, by rw [← advance_add, List.length_append], ?_⟩
  exact List.append_cancel_left (hu.2.symm.trans hw)

end

end Cursor

end ProtoIdl
