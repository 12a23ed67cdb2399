import ProtoIdl.Proofs.Text.Place
import ProtoIdl.Token.Quotation
/-!
# White space in the place of white space

A `Respacing` is a text together with the same text in another layout: piece by piece, it has a
character that both share, or a gap, which is white space in the old text and other white space in the
new one. Between two pieces a cursor of the old text is aligned with a cursor of the new one
(`Respacing.Aligns`). From there on both read the same characters, as long as these are no white space
(`Aligns.cons`), and white space ends at aligned cursors again (`Aligns.blanks`).
-/
namespace ProtoIdl

open Scan (isBlank)

/-- White space: spaces, tabs, carriage returns and newlines, one of them at least. -/
structure Blanks where
  chars : List Char
  ne_nil : chars ≠ []
  blank : ∀ x ∈ chars, isBlank x = true

/-- A piece of a text that is respaced. -/
inductive Piece
  /-- A character that stays. -/
  | char (x : Char)
  /-- White space that is replaced. -/
  | gap (old new : Blanks)

namespace Piece

/-- The piece as it was. -/
def old : Piece → List Char
  | char x => [x]
  | gap old _ => old.chars

/-- The piece as it becomes. -/
def new : Piece → List Char
  | char x => [x]
  | gap _ new => new.chars

theorem old_ne_nil (q : Piece) : q.old ≠ [] := by
  cases q with
  | char x => exact List.cons_ne_nil x []
  | gap old new => exact old.ne_nil

/-- A piece is a character that is no white space, or it is white space before and afterwards. -/
theorem cases_blank (q : Piece) : (∃ x, q = char x ∧ isBlank x = false) ∨
    q.new ≠ [] ∧ (∀ x ∈ q.old, isBlank x = true) ∧ ∀ x ∈ q.new, isBlank x = true := by
  cases q with
  | char x =>
    cases hx : isBlank x with
    | false => exact .inl ⟨x, rfl, hx⟩
    | true => exact .inr ⟨List.cons_ne_nil x [], by simpa [old], by simpa [new]⟩
  | gap old new => exact .inr ⟨new.ne_nil, old.blank, new.blank⟩

end Piece

/-- A text whose white space is replaced in places, as the list of its pieces. -/
abbrev Respacing := List Piece

namespace Respacing

/-- The text as it was. -/
def old (s : Respacing) : List Char := s.flatMap Piece.old

/-- The text as it becomes. -/
def new (s : Respacing) : List Char := s.flatMap Piece.new

/-- Where the gaps start, in characters of the old text. -/
def gaps : Respacing → List Nat
  | [] => []
  | .char _ :: s => (gaps s).map (· + 1)
  | .gap old _ :: s => 0 :: (gaps s).map (· + old.chars.length)

/-- The pieces that make up the first `n` octets of the old text. -/
def upTo : Respacing → Int → Respacing
  | [], _ => []
  | q :: s, n => if n ≤ 0 then [] else q :: upTo s (n - (Utf8.encode q.old).length)

/-- The place in the new text of a place between two pieces of the old one. -/
def move (s : Respacing) (file : String) (p : Position) : Position :=
  (Position.first file).after (s.upTo p.offset).new

variable {p q s : Respacing} {file : String}

@[simp]
theorem old_append : old (p ++ q) = old p ++ old q := List.flatMap_append

@[simp]
theorem new_append : new (p ++ q) = new p ++ new q := List.flatMap_append

@[simp]
theorem old_cons (x : Piece) : old (x :: q) = x.old ++ old q := List.flatMap_cons

@[simp]
theorem new_cons (x : Piece) : new (x :: q) = x.new ++ new q := List.flatMap_cons

theorem mem_gaps {a b : Blanks} : (old p).length ∈ gaps (p ++ .gap a b :: q) := by
  induction p with
  | nil => exact List.mem_cons_self
  | cons x p ih =>
    cases x with
    | char x =>
      have h := List.mem_map_of_mem (f := (· + 1)) ih
      simpa [gaps, Piece.old, Nat.add_comm] using h
    | gap o n =>
      have h := List.mem_map_of_mem (f := (· + o.chars.length)) ih
      simpa [gaps, Piece.old, Nat.add_comm] using List.mem_cons_of_mem 0 h

theorem upTo_append : upTo (p ++ q) (Utf8.encode (old p)).length = p := by
  induction p with
  | nil =>
    cases q with
    | nil => rfl
    | cons x q => exact if_pos (Int.le_refl 0)
  | cons x p ih =>
    have hpos : 0 < (Utf8.encode x.old).length := by
      obtain ⟨c, cs, hc⟩ := List.exists_cons_of_ne_nil x.old_ne_nil
      rw [hc, Utf8.encode_cons, List.length_append, String.length_utf8EncodeChar]
      exact Nat.add_pos_left c.utf8Size_pos _
    have hsum : ((Utf8.encode (old (x :: p))).length : Int) - (Utf8.encode x.old).length =
        (Utf8.encode (old p)).length := by
      rw [old_cons, Utf8.encode_append, List.length_append]
      omega
    rw [List.cons_append, upTo, if_neg (by omega), hsum, ih]

/-! ## Cursors of both texts -/

/-- The cursor of a text between the pieces `p` and `q`, which read as `part` says. -/
def cursor (part : Piece → List Char) (file : String) (p q : Respacing) : Cursor where
  rest := q.flatMap part
  ending := none
  position := (Position.first file).after (p.flatMap part)

theorem advance_cursor (part : Piece → List Char) (x : Piece) :
    (cursor part file p (x :: q)).advance (part x).length = cursor part file (p ++ [x]) q := by
  simp [cursor, Cursor.advance, Position.after_append]

/-- The cursors stand between the same two pieces of the old and of the new text. -/
def Aligns (s : Respacing) (file : String) (c c' : Cursor) : Prop :=
  ∃ p q, s = p ++ q ∧ c = cursor Piece.old file p q ∧ c' = cursor Piece.new file p q

section
variable {part : Piece → List Char} {x : Piece} {f : Char → Bool}

/-- A piece that a class has all of is taken as a whole, and what follows it is too. -/
theorem advance_takeWhile (part : Piece → List Char) (hx : ∀ y ∈ part x, f y = true) :
    (cursor part file p (x :: q)).rest.takeWhile f =
      part x ++ (cursor part file (p ++ [x]) q).rest.takeWhile f ∧
    (cursor part file p (x :: q)).advance
        ((cursor part file p (x :: q)).rest.takeWhile f).length =
      (cursor part file (p ++ [x]) q).advance
        ((cursor part file (p ++ [x]) q).rest.takeWhile f).length := by
  have htake : (cursor part file p (x :: q)).rest.takeWhile f =
      part x ++ (cursor part file (p ++ [x]) q).rest.takeWhile f :=
    List.takeWhile_append_of_pos hx
  refine ⟨htake, ?_⟩
  rw [htake, List.length_append, Cursor.advance_add, advance_cursor]

end

namespace Aligns

variable {c c' : Cursor}

theorem whole (h : s.Aligns file c c') : c.ending = none := by
  obtain ⟨p, q, -, rfl, -⟩ := h
  rfl

theorem whole_new (h : s.Aligns file c c') : c'.ending = none := by
  obtain ⟨p, q, -, -, rfl⟩ := h
  rfl

theorem position (h : s.Aligns file c c') : c'.position = s.move file c.position := by
  obtain ⟨p, q, rfl, rfl, rfl⟩ := h
  have hoffset : ((Position.first file).after (old p)).offset = (Utf8.encode (old p)).length := by
    rw [Position.offset_after]
    exact Int.zero_add _
  have hmove : move (p ++ q) file ((Position.first file).after (old p)) =
      (Position.first file).after (new p) := by
    rw [move, hoffset, upTo_append]
  exact hmove.symm

/-- A piece further on the cursors are aligned again. -/
theorem piece {x : Piece} (hs : s = p ++ x :: q) :
    s.Aligns file ((cursor Piece.old file p (x :: q)).advance x.old.length)
      ((cursor Piece.new file p (x :: q)).advance x.new.length) :=
  ⟨p ++ [x], q, by simp [hs], advance_cursor Piece.old x, advance_cursor Piece.new x⟩

/-- The next character, if it is no white space, is the same in both texts. -/
theorem cons {x : Char} {rest : List Char} (h : s.Aligns file c c') (hc : c.rest = x :: rest)
    (hx : isBlank x = false) :
    c'.rest.head? = some x ∧ s.Aligns file (c.advance 1) (c'.advance 1) := by
  obtain ⟨p, q, hs, rfl, rfl⟩ := h
  cases q with
  | nil => cases hc
  | cons y q =>
    rcases y.cases_blank with ⟨y, rfl, -⟩ | ⟨-, hold, -⟩
    · obtain ⟨rfl, -⟩ := List.cons.inj hc
      exact ⟨rfl, piece hs⟩
    · obtain ⟨z, zs, hz⟩ := List.exists_cons_of_ne_nil y.old_ne_nil
      have hhead : z :: (zs ++ old q) = x :: rest := by
        rw [← List.cons_append, ← hz]
        exact hc
      rw [← (List.cons.inj hhead).1, hold z (by simp [hz])] at hx
      cases hx

/-- Either the next characters are the same, or both are white space, or both texts end. -/
theorem head (h : s.Aligns file c c') :
    c'.rest.head?.filter (!isBlank ·) = c.rest.head?.filter (!isBlank ·) := by
  obtain ⟨p, q, -, rfl, rfl⟩ := h
  have hblank (part : Piece → List Char) (x : Piece) (q : Respacing) (hne : part x ≠ [])
      (hx : ∀ y ∈ part x, isBlank y = true) :
      (cursor part file p (x :: q)).rest.head?.filter (!isBlank ·) = none := by
    obtain ⟨z, zs, hz⟩ := List.exists_cons_of_ne_nil hne
    simp [cursor, hz, hx z (by simp [hz])]
  cases q with
  | nil => rfl
  | cons x q =>
    rcases x.cases_blank with ⟨y, rfl, -⟩ | ⟨hne, hold, hnew⟩
    · rfl
    · rw [hblank Piece.new x q hne hnew, hblank Piece.old x q x.old_ne_nil hold]

/-- Where nothing is taken the cursors stay. -/
theorem stay {f : Char → Bool} (h : s.Aligns file c c') (hc : c.rest.takeWhile f = [])
    (hc' : c'.rest.takeWhile f = []) : c'.rest.takeWhile f = c.rest.takeWhile f ∧
      s.Aligns file (c.advance (c.rest.takeWhile f).length)
        (c'.advance (c'.rest.takeWhile f).length) := by
  rw [hc, hc', List.length_nil, Cursor.advance_zero, Cursor.advance_zero]
  exact ⟨rfl, h⟩

/-- White space ends at aligned cursors. -/
theorem blanks (h : s.Aligns file c c') :
    s.Aligns file (c.advance (c.rest.takeWhile isBlank).length)
      (c'.advance (c'.rest.takeWhile isBlank).length) := by
  obtain ⟨p, q, hs, rfl, rfl⟩ := h
  induction q generalizing p with
  | nil => exact (stay ⟨p, [], hs, rfl, rfl⟩ rfl rfl).2
  | cons x q ih =>
    rcases x.cases_blank with ⟨y, rfl, hy⟩ | ⟨-, hold, hnew⟩
    · have hcons (part : Piece → List Char) (hpart : part (.char y) = [y]) :
          (cursor part file p (.char y :: q)).rest.takeWhile isBlank = [] := by
        simp [cursor, hpart, hy]
      exact (stay ⟨p, .char y :: q, hs, rfl, rfl⟩ (hcons Piece.old rfl) (hcons Piece.new rfl)).2
    · rw [(advance_takeWhile Piece.old hold).2, (advance_takeWhile Piece.new hnew).2]
      exact ih (p ++ [x]) (by simp [hs])

end Aligns

end Respacing

end ProtoIdl
