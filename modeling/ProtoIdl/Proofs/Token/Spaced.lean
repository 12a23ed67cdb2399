import ProtoIdl.Proofs.Token.Words
import ProtoIdl.Proofs.Token.Pairing
import Mathlib.Data.List.DropRight
/-!
# Words with blanks between them

`spaced ws` is the text of the words `ws` with one blank between each two; what is read of it depends
on `front ws` only, the text without the blanks in front. `Lexes mode ws kind w rest` says that the
token under the mode is `w`, of the given kind, and that the words `rest` are left. A name may also
stand in the text as one word, though it is several tokens: `glue` writes it either way. Main
statements: `lexes_ident`, `lexes_delimiter`, `lexes_int`, `lexes_number` and `lexes_string`.
-/
namespace ProtoIdl

open Scan Spelling

/-- The characters of words with one blank between each two. -/
def spaced (ws : List String) : List Char := (" ".intercalate ws).toList

/-- The text of words without the blanks in front. -/
def front (ws : List String) : List Char := (spaced ws).dropWhile isBlank

/-- Tokens as words of their own, or as one word. -/
def glue (loose : Bool) (ts ws : List String) : List String :=
  if loose then ts ++ ws else String.join ts :: ws

/-- The number of characters that are not blank. -/
def ink : List String → Nat
  | [] => 0
  | w :: ws => w.toList.countP (fun x => !isBlank x) + ink ws

/-- A word can be told from the blanks and comments in front of it. -/
def Shows (w : String) : Prop := ∃ x rest, w.toList = x :: rest ∧ isBlank x = false ∧ x ≠ '/'

variable {w t : String} {ts ws rest : List String} {mode : Mode} {kind : Kind}

/-- What stands behind a word: nothing, or a blank and the other words. -/
def behind (ws : List String) : List Char := if ws = [] then [] else ' ' :: spaced ws

theorem spaced_cons (w : String) (ws : List String) : spaced (w :: ws) = w.toList ++ behind ws := by
  cases ws with
  | nil => simp [spaced, behind]
  | cons v ws => simp [spaced, behind]

theorem blank_behind (ws : List String) : ∀ x ∈ (behind ws).head?, isBlank x = true := by
  unfold behind
  split
  · simp
  · rintro _ ⟨⟩
    rfl

theorem dropWhile_behind (ws : List String) : (behind ws).dropWhile isBlank = front ws := by
  unfold behind
  split
  · next h => rw [h]; rfl
  · rw [List.dropWhile_cons]
    rfl

theorem Shows.dropWhile (h : Shows w) (tail : List Char) :
    (w.toList ++ tail).dropWhile isBlank = w.toList ++ tail := by
  obtain ⟨x, rest, hw, hx, -⟩ := h
  rw [hw, List.cons_append, List.dropWhile_cons, hx]
  rfl

/-! ## Glued tokens -/

@[simp]
theorem front_empty (ws : List String) : front ("" :: ws) = front ws := by
  rw [front, spaced_cons]
  exact dropWhile_behind ws

@[simp]
theorem front_glue_nil (loose : Bool) (ws : List String) : front (glue loose [] ws) = front ws := by
  cases loose with
  | true => rfl
  | false => exact front_empty ws

/-- Behind the first of glued tokens there is a blank, or the second token. -/
theorem front_glue (loose : Bool) (h : Shows t) (ts ws : List String) : ∃ tail,
    front (glue loose (t :: ts) ws) = t.toList ++ tail ∧
      tail.dropWhile isBlank = front (glue loose ts ws) ∧
        ∀ x ∈ tail.head?, isBlank x = true ∨ x ∈ (String.join ts).toList.head? := by
  cases loose with
  | true =>
    refine ⟨behind (ts ++ ws), ?_, dropWhile_behind _, fun x hx => .inl (blank_behind _ x hx)⟩
    change (spaced (t :: (ts ++ ws))).dropWhile isBlank = _
    rw [spaced_cons, h.dropWhile]
  | false =>
    have hjoin : spaced (String.join (t :: ts) :: ws) =
        t.toList ++ ((String.join ts).toList ++ behind ws) := by
      rw [spaced_cons, String.join_cons, String.toList_append, List.append_assoc]
    refine ⟨(String.join ts).toList ++ behind ws, ?_, ?_, fun x hx => ?_⟩
    · change (spaced (String.join (t :: ts) :: ws)).dropWhile isBlank = _
      rw [hjoin, h.dropWhile]
    · change _ = (spaced (String.join ts :: ws)).dropWhile isBlank
      rw [spaced_cons]
    · cases hts : (String.join ts).toList with
      | nil =>
        rw [hts] at hx
        exact .inl (blank_behind ws x hx)
      | cons y rest =>
        rw [hts] at hx
        exact .inr hx

/-- A word that shows stands in front. -/
theorem Shows.front_cons (h : Shows w) (ws : List String) :
    ∃ tail, front (w :: ws) = w.toList ++ tail := by
  obtain ⟨tail, hf, -⟩ := front_glue true h [] ws
  exact ⟨tail, hf⟩

/-! ## Ink -/

@[simp]
theorem ink_nil : ink [] = 0 := rfl

@[simp]
theorem ink_cons (w : String) (ws : List String) :
    ink (w :: ws) = w.toList.countP (fun x => !isBlank x) + ink ws := rfl

@[simp]
theorem ink_append (us ws : List String) : ink (us ++ ws) = ink us + ink ws := by
  induction us with
  | nil => simp
  | cons u us ih => rw [List.cons_append, ink_cons, ih, ink_cons, Nat.add_assoc]

@[simp]
theorem ink_glue (loose : Bool) (ts ws : List String) : ink (glue loose ts ws) = ink ts + ink ws := by
  cases loose with
  | true => exact ink_append ts ws
  | false =>
    have hjoin : (String.join ts).toList.countP (fun x => !isBlank x) = ink ts := by
      induction ts with
      | nil => rfl
      | cons t ts ih => rw [String.join_cons, String.toList_append, List.countP_append, ih, ink_cons]
    change ink (String.join ts :: ws) = _
    rw [ink_cons, hjoin]

theorem Shows.ink_pos (h : Shows w) (ws : List String) : ink ws < ink (w :: ws) := by
  obtain ⟨x, rest, hw, hx, -⟩ := h
  rw [ink_cons, hw, List.countP_cons, hx]
  simp

theorem countP_dropWhile (text : List Char) : (text.dropWhile isBlank).countP (fun x => !isBlank x) =
    text.countP fun x => !isBlank x := by
  induction text with
  | nil => rfl
  | cons x rest ih =>
    rw [List.dropWhile_cons]
    split
    · next hx => rw [ih, List.countP_cons, hx]; rfl
    · rfl

theorem countP_front (ws : List String) : (front ws).countP (fun x => !isBlank x) = ink ws := by
  rw [front, countP_dropWhile]
  induction ws with
  | nil => rfl
  | cons w ws ih =>
    rw [spaced_cons, List.countP_append, ink_cons, ← ih, ← countP_dropWhile (behind ws),
      dropWhile_behind, front, countP_dropWhile]

/-! ## Tokens -/

/-- On these words the token under the mode is `w`, of the given kind, and `rest` is left. It is not
in front of a comment. -/
structure Lexes (mode : Mode) (ws : List String) (kind : Kind) (w : String) (rest : List String) :
    Prop where
  bare : (front ws).head? ≠ some '/'
  takes : ∃ tail, Takes mode (front ws) kind w.toList tail ∧ tail.dropWhile isBlank = front rest

theorem Lexes.of_front {ws' vs : List String} (h : Lexes mode ws kind w vs)
    (hf : front ws = front ws') : Lexes mode ws' kind w vs :=
  ⟨hf ▸ h.bare, hf ▸ h.takes⟩

theorem Shows.bare (loose : Bool) (h : Shows t) (ts ws : List String) :
    (front (glue loose (t :: ts) ws)).head? ≠ some '/' := by
  obtain ⟨tail, hf, -⟩ := front_glue loose h ts ws
  obtain ⟨x, rest, hw, -, hx⟩ := h
  rw [hf, hw]
  simpa using hx

/-- The first of glued tokens is read if it can be read in front of a blank and of the second. -/
theorem lexes_glue (loose : Bool) (h : Shows t)
    (ht : ∀ tail, (∀ x ∈ tail.head?, isBlank x = true ∨ x ∈ (String.join ts).toList.head?) →
      Takes mode (t.toList ++ tail) kind t.toList tail) :
    Lexes mode (glue loose (t :: ts) ws) kind t (glue loose ts ws) := by
  obtain ⟨tail, hf, hd, hx⟩ := front_glue loose h ts ws
  exact ⟨h.bare loose ts ws, tail, hf ▸ ht tail hx, hd⟩

/-- A word by itself is read if it can be read in front of a blank. -/
theorem lexes_word (h : Shows w) (hw : ∀ tail, (∀ x ∈ tail.head?, isBlank x = true) →
    Takes mode (w.toList ++ tail) kind w.toList tail) : Lexes mode (w :: ws) kind w ws := by
  change Lexes mode (glue true [w] ws) kind w (glue true [] ws)
  exact lexes_glue true h fun tail ht => hw tail fun x hx => (ht x hx).resolve_right (by simp)

/-- Characters of a class without blanks and slashes show. -/
theorem shows_of_class {p : Char → Bool} {x : Char} {more : List Char} (hw : w.toList = x :: more)
    (hx : p x = true) (hp : p ' ' = false ∧ p '\t' = false ∧ p '\r' = false ∧ p '\n' = false)
    (hs : p '/' = false) : Shows w := by
  refine ⟨x, more, hw, ?_, ?_⟩
  · rw [← Bool.not_eq_true]
    intro hb
    simp only [isBlank, Bool.or_eq_true, beq_iff_eq, or_assoc] at hb
    rcases hb with rfl | rfl | rfl | rfl <;> simp_all
  · rintro rfl
    rw [hs] at hx
    cases hx

theorem shows_ident (hw : isIdent w.toList = true) : Shows w := by
  cases h : w.toList with
  | nil =>
    rw [h] at hw
    cases hw
  | cons x more =>
    rw [h] at hw
    exact shows_of_class h (Bool.and_eq_true_iff.1 hw).1 (by decide) (by decide)

/-- Words are read up to a blank or to what cannot be in a word. -/
theorem lexes_ident (mode : Mode) (loose : Bool) (hw : isIdent w.toList = true)
    (hts : ∀ x ∈ (String.join ts).toList.head?, Text.isIdentChar x = false) (ws : List String) :
    Lexes mode (glue loose (w :: ts) ws) (wordKind mode w) w (glue loose ts ws) := by
  refine lexes_glue loose (shows_ident hw) fun tail ht => ?_
  have hstop : ∀ x ∈ tail.head?, Text.isIdentChar x = false := by
    intro x hx
    rcases ht x hx with hb | hx
    · exact (Bool.or_eq_false_iff.1 (solid_isNumberTail _ hb)).1
    · exact hts x hx
  have htakes := takes_ident mode hw hstop
  rwa [String.ofList_toList] at htakes

namespace Delimiter

/-- The spelling of a delimiter, with double quotes. -/
def symbol : Delimiter → String
  | .equals => "="
  | .semicolon => ";"
  | .comma => ","
  | .dot => "."
  | .colon => ":"
  | .leftParen => "("
  | .rightParen => ")"
  | .leftBrace => "\x7b"
  | .rightBrace => "\x7d"
  | .leftBracket => "["
  | .rightBracket => "]"
  | .leftAngle => "<"
  | .rightAngle => ">"
  | .minus => "-"
  | .plus => "+"
  | .slash => "/"
  | .quote => "\""

/-- The word is a delimiter, and not the one that may open a comment. -/
def Spells (d : Delimiter) (w : String) : Prop :=
  ∃ x, w.toList = [x] ∧ ofChar? x = some d ∧ d ≠ .slash

theorem spells_symbol {d : Delimiter} (hd : d ≠ .slash) : d.Spells d.symbol := by
  cases d
  case slash => exact absurd rfl hd
  all_goals exact ⟨_, by simp [symbol]; rfl, rfl, by decide⟩

theorem Spells.shows {d : Delimiter} (h : d.Spells w) : Shows w := by
  obtain ⟨x, hw, hx, hd⟩ := h
  refine shows_of_class (p := fun y => (ofChar? y).any (· ≠ .slash)) hw ?_ (by decide) (by decide)
  simpa [hx] using hd

end Delimiter

/-- A delimiter is read whatever follows it. -/
theorem lexes_delimiter {d : Delimiter} (loose : Bool) (hw : d.Spells w)
    (hn : mode.numbers = false) (hs : mode.strings = false) (ts ws : List String) :
    Lexes mode (glue loose (w :: ts) ws) (.delimiter d) w (glue loose ts ws) := by
  refine lexes_glue loose hw.shows fun tail _ => ?_
  obtain ⟨x, hw, hx, -⟩ := hw
  rw [hw]
  exact takes_delimiter hx (by rw [hs, Bool.and_false]) (by rw [hn, Bool.false_and])

/-- An opening bracket is read under every mode. -/
theorem lexes_leftBrace (mode : Mode) (loose : Bool) (ts ws : List String) :
    Lexes mode (glue loose ("\x7b" :: ts) ws) (.delimiter .leftBrace) "\x7b" (glue loose ts ws) := by
  have hspells : Delimiter.Spells .leftBrace "\x7b" := Delimiter.spells_symbol (d := .leftBrace) nofun
  have hchar : "\x7b".toList = ['\x7b'] := rfl
  refine lexes_glue loose hspells.shows fun tail _ => ?_
  rw [hchar]
  exact takes_delimiter rfl (by simp [isQuote]) (by simp)

/-- The end of the text. -/
theorem lexes_eof (mode : Mode) (h : front ws = []) : Lexes mode ws .eof "" ws where
  bare := by simp [h]
  takes := ⟨[], by rw [h]; exact takes_eof mode, by rw [h]; rfl⟩

/-! ## Literals -/

theorem shows_int (hw : isIntLit w.toList = true) : Shows w := by
  obtain ⟨hne, hd⟩ := isIntLit_digit hw
  obtain ⟨x, more, h⟩ := List.exists_cons_of_ne_nil hne
  exact shows_of_class h (hd x (by rw [h]; rfl)) (by decide) (by decide)

/-- An integer without a sign is read under every mode. -/
theorem lexes_int (mode : Mode) (hw : isIntLit w.toList = true) (ws : List String) :
    Lexes mode (w :: ws) .intLit w ws :=
  lexes_word (shows_int hw) fun _ ht =>
    takes_int mode hw fun x hx => solid_isNumberTail _ (ht x hx)

/-- A character that a number may start with. -/
def startsNumber (x : Char) : Bool :=
  isSign x || Text.isDigit x || x == '.' || Text.isIdentStart x

theorem startsNumber_head {u : List Char} (hu : isIntLit u = true ∨ isFloatLit u = true ∨
    u = "inf".toList ∨ u = "nan".toList) : ∃ x more, u = x :: more ∧ startsNumber x = true := by
  have hdigit (hne : u ≠ []) (hd : ∀ x ∈ u.head?, Text.isDigit x = true) :
      ∃ x more, u = x :: more ∧ startsNumber x = true := by
    obtain ⟨x, more, rfl⟩ := List.exists_cons_of_ne_nil hne
    exact ⟨x, more, rfl, by simp [startsNumber, hd x rfl]⟩
  rcases hu with h | h | h
  · exact hdigit (isIntLit_digit h).1 (isIntLit_digit h).2
  · rcases isFloatLit_head h with ⟨hne, hd⟩ | ⟨x, more, rfl⟩
    · exact hdigit hne hd
    · exact ⟨'.', x :: more, rfl, by decide⟩
  · have hident := isIdent_of_special h
    cases u with
    | nil => cases hident
    | cons x more =>
      exact ⟨x, more, rfl, by simp [startsNumber, (Bool.and_eq_true_iff.1 hident).1]⟩

theorem shows_number (hw : isNumber w.toList = true) : Shows w := by
  obtain ⟨x, more, h, hx⟩ : ∃ x more, w.toList = x :: more ∧ startsNumber x = true := by
    have hcases := isNumber_cases hw
    cases h : w.toList with
    | nil =>
      rw [h] at hcases
      exact startsNumber_head hcases
    | cons x more =>
      by_cases hx : isSign x = true
      · exact ⟨x, more, rfl, by simp [startsNumber, hx]⟩
      · rw [h, dropSign, if_neg hx] at hcases
        exact startsNumber_head hcases
  exact shows_of_class h hx (by decide) (by decide)

/-- An integer with at most one sign is read where numbers are wanted. -/
theorem lexes_signed_int (mode : Mode) (hn : mode.numbers = true)
    (hw : isIntLit (dropSign w.toList) = true)
    (ws : List String) : Lexes mode (w :: ws) .intLit w ws :=
  lexes_word (shows_number (by simp [isNumber, hw])) fun _ ht =>
    takes_intLit hn hw fun x hx => solid_isNumberTail _ (ht x hx)

/-- A number is read where numbers are wanted, up to what cannot go on in it. -/
theorem lexes_number (loose : Bool) (hn : mode.numbers = true) (hw : isNumber w.toList = true)
    (hts : ∀ x ∈ (String.join ts).toList.head?, isNumberTail x = false) (ws : List String) :
    ∃ kind ∈ [Kind.intLit, .floatLit],
      Lexes mode (glue loose (w :: ts) ws) kind w (glue loose ts ws) := by
  obtain ⟨tail, hf, hd, hx⟩ := front_glue loose (shows_number hw) ts ws
  obtain ⟨kind, hk, htakes⟩ := takes_number tail hn hw fun x hmem =>
    (hx x hmem).elim (solid_isNumberTail x) (hts x)
  exact ⟨kind, hk, (shows_number hw).bare loose ts ws, tail, hf ▸ htakes, hd⟩

/-- A sign is read by itself if it is a word of its own, and in front of another sign. -/
theorem lexes_sign {x : Char} {d : Delimiter} (loose : Bool) (hn : mode.numbers = true)
    (hw : w.toList = [x]) (hx : isSign x = true) (hd : Delimiter.ofChar? x = some d)
    (hts : ∀ y ∈ (String.join ts).toList.head?, isSign y = true) (ws : List String) :
    Lexes mode (glue loose (w :: ts) ws) (.delimiter d) w (glue loose ts ws) := by
  have hslash : d ≠ .slash := by
    rintro rfl
    rcases isSign_cases hx with rfl | rfl <;> cases hd
  have hspells : d.Spells w := ⟨x, hw, hd, hslash⟩
  refine lexes_glue loose hspells.shows fun tail ht => ?_
  rw [hw]
  exact takes_sign_alone hn hx hd fun y hy => (ht y hy).imp_right (hts y)

theorem shows_string (hw : isStrLit w.toList = true) : Shows w := by
  cases h : w.toList with
  | nil =>
    rw [h] at hw
    cases hw
  | cons x more =>
    rw [h] at hw
    exact shows_of_class h (Bool.and_eq_true_iff.1 hw).1 (by decide) (by decide)

/-- A string is read where strings are wanted, if no other string follows. -/
theorem lexes_string_glued (mode : Mode) (loose : Bool) (hs : mode.strings = true)
    (hw : isStrLit w.toList = true)
    (hts : ∀ x ∈ (front (glue loose ts ws)).head?, isQuote x = false) :
    Lexes mode (glue loose (w :: ts) ws) .stringLit w (glue loose ts ws) := by
  obtain ⟨tail, hf, hd, -⟩ := front_glue loose (shows_string hw) ts ws
  refine ⟨(shows_string hw).bare loose ts ws, front (glue loose ts ws), ?_, ?_⟩
  · rw [hf, ← hd]
    rw [← hd] at hts
    exact takes_string hs hw hts
  · rw [← hd, List.dropWhile_idempotent]

theorem lexes_string (mode : Mode) (hs : mode.strings = true) (hw : isStrLit w.toList = true)
    (hws : ∀ x ∈ (front ws).head?, isQuote x = false) : Lexes mode (w :: ws) .stringLit w ws := by
  change Lexes mode (glue true [w] ws) .stringLit w (glue true [] ws)
  exact lexes_string_glued mode true hs hw hws

end ProtoIdl
