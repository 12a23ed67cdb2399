import ProtoIdl.Tree.Literal
import ProtoIdl.Proofs.Recovery.Values
import ProtoIdl.Proofs.Token.Literals
import Mathlib.Data.List.Infix
/-!
# The text of a literal

From its start on the text of a literal tells the literal and where it ends, except in one place: where
an entry that is no list, no group and no string is not followed by a comma, its value and the name
behind it make one word, and that word may be cut in another place too (`Spelling.isBlurred`). A
literal without such a place is read back from its text (`Literal.render_cancel`), and to one that has
such a place there is another with the same text (`Literal.exists_recut`).

Which words are names is left open, because it depends on who reads the literal: `isName` is a
parameter, and all that is asked of it is that names are made of the characters of words and dots.
-/
namespace ProtoIdl

namespace Spelling

open Text (isDigit isHexDigit isIdentChar)
open Scan (isQuote isNumberTail)

/-- A number with a second sign in front of it. -/
def isTwiceSigned : List Char → Bool
  | x :: n => isSign x && n.head?.any isSign && isNumber n
  | [] => false

/-- What is read as a value: a constant, or a number with two signs. -/
def isValue (w : String) : Bool := isConstant w || isTwiceSigned w.toList

/-- A character of a name or of a number with signs. -/
def isWordChar (x : Char) : Bool := isNumberTail x || isSign x

/-- Whether the word that a value makes with a name behind it is a value and a name in another way
too. -/
def isBlurred (isName : String → Bool) (text name : String) : Bool :=
  (text ++ name).toList.inits.any fun w => w != text.toList && isValue (String.ofList w) &&
    isName (String.ofList ((text ++ name).toList.drop w.length))

end Spelling

open Spelling
open Scan (isQuote isNumberTail)

/-! ## Values -/

namespace Spelling

open Text (isDigit isHexDigit isIdentChar)

variable {w : List Char}

theorem isWordChar_of_isNumberTail {x : Char} (h : isNumberTail x = true) : isWordChar x = true := by
  rw [isWordChar, h, Bool.true_or]

theorem isNumberTail_of_isDigit {x : Char} (h : isDigit x = true) : isNumberTail x = true := by
  rw [isNumberTail, Text.isIdentChar_of_isDigit h, Bool.true_or]

theorem all_wordChar {p : Char → Bool} (hp : ∀ x, p x = true → isNumberTail x = true)
    (h : w.all p = true) : w.all isWordChar = true :=
  List.all_eq_true.2 fun x hx => isWordChar_of_isNumberTail (hp x (List.all_eq_true.1 h x hx))

theorem isNumberTail_of_isIdentChar {x : Char} (h : isIdentChar x = true) :
    isNumberTail x = true := by
  rw [isNumberTail, h, Bool.true_or]

/-- The characters behind a sign decide whether all of them are those of words. -/
theorem all_wordChar_of_dropSign (h : (dropSign w).all isWordChar = true) :
    w.all isWordChar = true := by
  cases w with
  | nil => rfl
  | cons x rest =>
    rw [dropSign] at h
    split at h
    · next hx => rw [List.all_cons, h, isWordChar, hx, Bool.or_true, Bool.and_true]
    · exact h

theorem all_of_isIntLit (h : isIntLit w = true) : w.all isWordChar = true := by
  rcases Scan.isIntLit_cases h with ⟨x, rest, rfl, hx, -, hrest⟩ | ⟨-, hall, -⟩
  · have hhex : rest.all isWordChar = true := all_wordChar (fun x hx =>
      isNumberTail_of_isIdentChar (Text.isIdentChar_of_isHexDigit hx)) hrest
    rcases hx with rfl | rfl <;> rw [List.all_cons, List.all_cons, hhex] <;> decide
  · exact all_wordChar (fun x => isNumberTail_of_isDigit) hall

theorem all_of_isExponent (h : isExponent w = true) : w.all isWordChar = true := by
  cases w with
  | nil => rfl
  | cons x rest =>
    rw [isExponent, Bool.and_eq_true, Bool.or_eq_true, beq_iff_eq, beq_iff_eq, isDigits,
      Bool.and_eq_true] at h
    obtain ⟨hx, -, hdigits⟩ := h
    have hrest := all_wordChar_of_dropSign (all_wordChar (fun x => isNumberTail_of_isDigit) hdigits)
    rcases hx with rfl | rfl <;> rw [List.all_cons, hrest] <;> decide

theorem all_of_isFloatLit (h : isFloatLit w = true) : w.all isWordChar = true := by
  obtain ⟨ds, fr, ex, rfl, hds, hfr, hex, -, -⟩ := Scan.isFloatLit_cases h
  have hdigits (ds : List Char) (h : ds.all isDigit = true) : ds.all isWordChar = true :=
    all_wordChar (fun x => isNumberTail_of_isDigit) h
  have hfraction : fr.all isWordChar = true := by
    rcases hfr with rfl | ⟨fs, rfl, hfs⟩
    · rfl
    · rw [List.all_cons, hdigits fs hfs]
      decide
  have hexponent : ex.all isWordChar = true := by
    rcases hex with rfl | hex
    · rfl
    · exact all_of_isExponent hex
  rw [List.all_append, List.all_append, hdigits ds hds, hfraction, hexponent]
  rfl

theorem all_of_isNumber (h : isNumber w = true) : w.all isWordChar = true := by
  refine all_wordChar_of_dropSign ?_
  rcases Scan.isNumber_cases h with h | h | h
  · exact all_of_isIntLit h
  · exact all_of_isFloatLit h
  · exact all_wordChar (fun x => isNumberTail_of_isIdentChar)
      (all_of_isIdent (Scan.isIdent_of_special h))

theorem all_of_isDots {ts : List String} (h : isDots ts = true) :
    (String.join ts).toList.all isNumberTail = true := by
  induction ts using isDots.induct with
  | case1 => simp
  | case2 => cases h
  | case3 dot part rest ih =>
    simp only [isDots, Bool.and_eq_true, beq_iff_eq] at h
    obtain ⟨⟨rfl, hpart⟩, hrest⟩ := h
    have hword : part.toList.all isNumberTail = true := List.all_eq_true.2 fun x hx =>
      isNumberTail_of_isIdentChar (List.all_eq_true.1 (all_of_isIdent hpart) x hx)
    rw [String.join_cons, String.join_cons, String.toList_append, String.toList_append,
      List.all_append, List.all_append, hword, ih hrest]
    decide

/-- A name with dots is made of the characters of words and of dots. -/
theorem all_of_isFullIdent {name : String} (h : isFullIdent (nameTokens name) = true) :
    name.toList ≠ [] ∧ name.toList.all isNumberTail = true := by
  obtain ⟨first, rest, hts, hfirst, hrest⟩ := isFullIdent_cases h
  rw [← join_nameTokens name, hts, String.join_cons, String.toList_append]
  have hne : first.toList ≠ [] := by
    intro hnil
    rw [hnil] at hfirst
    cases hfirst
  refine ⟨by simp [hne], ?_⟩
  rw [List.all_append, all_of_isDots hrest, Bool.and_true]
  exact List.all_eq_true.2 fun x hx =>
    isNumberTail_of_isIdentChar (List.all_eq_true.1 (all_of_isIdent hfirst) x hx)

/-- A value is a string, or a word. -/
theorem isValue_cases {text : String} (h : isValue text = true) :
    isStrLit text.toList = true ∨ text.toList ≠ [] ∧ text.toList.all isWordChar = true := by
  have hnumber {n : List Char} (h : isNumber n = true) : n ≠ [] ∧ n.all isWordChar = true := by
    refine ⟨?_, all_of_isNumber h⟩
    rintro rfl
    exact absurd h (by decide)
  rw [isValue, Bool.or_eq_true] at h
  rcases h with h | h
  · simp only [isConstant, isLiteral, Bool.or_eq_true, Bool.and_eq_true, beq_iff_eq] at h
    rcases h with (((h | h) | rfl) | rfl) | ⟨h, -⟩
    · exact .inl h
    · exact .inr (hnumber h)
    · exact .inr (by decide)
    · exact .inr (by decide)
    · obtain ⟨hne, hall⟩ := all_of_isFullIdent h
      exact .inr ⟨hne, all_wordChar (fun _ hx => hx) hall⟩
  · cases htext : text.toList with
    | nil =>
      rw [htext] at h
      cases h
    | cons x n =>
      simp only [htext, isTwiceSigned, Bool.and_eq_true] at h
      refine .inr ⟨List.cons_ne_nil x n, ?_⟩
      rw [List.all_cons, isWordChar, h.1.1, Bool.or_true, (hnumber h.2).2]
      rfl

end Spelling

/-- A border that can be drawn in another place. -/
theorem Spelling.isBlurred_iff {isName : String → Bool} {text name : String} :
    isBlurred isName text name = true ↔ ∃ text' name', text' ++ name' = text ++ name ∧
      text' ≠ text ∧ isValue text' = true ∧ isName name' = true := by
  simp only [isBlurred, List.any_eq_true, List.mem_inits, Bool.and_eq_true, bne_iff_ne, ne_eq]
  constructor
  · rintro ⟨w, ⟨rest, hrest⟩, ⟨hw, hvalue⟩, hname⟩
    rw [← hrest, List.drop_left] at hname
    refine ⟨String.ofList w, String.ofList rest, ?_, ?_, hvalue, hname⟩
    · rw [← String.ofList_append, hrest, String.ofList_toList]
    · rintro rfl
      exact hw String.toList_ofList.symm
  · rintro ⟨text', name', happ, hne, hvalue, hname⟩
    have hchars : text'.toList ++ name'.toList = (text ++ name).toList := by
      rw [← happ, String.toList_append]
    refine ⟨text'.toList, ⟨_, hchars⟩, ⟨fun h => hne (String.toList_inj.1 h), ?_⟩, ?_⟩
    · rwa [String.ofList_toList]
    · rwa [← hchars, List.drop_left, String.ofList_toList]

/-! ## Literals -/

section
variable (isName : String → Bool)

/-- Whether the value runs into the name of the first entry behind it. -/
def Literal.runsInto : Literal → Entries → Bool
  | .constant text, .cons name _ _ _ => isBlurred isName text name
  | _, _ => false

mutual
/-- Whether the parts of a literal are spelled as they are read. -/
def Literal.isWellFormed : Literal → Bool
  | .constant text => isValue text
  | .list items => items.all fun item => isStrLit item.toList
  | .group entries => entries.areWellFormed

/-- Whether the parts of all entries are spelled as they are read. -/
def Entries.areWellFormed : Entries → Bool
  | .nil => true
  | .cons name value _ rest => isName name && value.isWellFormed && rest.areWellFormed
end

mutual
/-- Whether somewhere in a literal a value runs into the name behind it. -/
def Literal.isBlurred : Literal → Bool
  | .constant _ | .list _ => false
  | .group entries => entries.areBlurred

/-- Whether somewhere in the entries a value runs into the name behind it. -/
def Entries.areBlurred : Entries → Bool
  | .nil => false
  | .cons _ value comma rest =>
    !comma && value.runsInto isName rest || value.isBlurred || rest.areBlurred
end

end

mutual
/-- A literal with a comma behind every entry. Two literals have the same entries if they are the
same with all commas. -/
def Literal.withCommas : Literal → Literal
  | .constant text => .constant text
  | .list items => .list items
  | .group entries => .group entries.withCommas

/-- Entries with a comma behind each. -/
def Entries.withCommas : Entries → Entries
  | .nil => .nil
  | .cons name value _ rest => .cons name value.withCommas true rest.withCommas
end

/-- Whether there are no entries. -/
def Entries.isEmpty : Entries → Bool
  | .nil => true
  | .cons .. => false

mutual
/-- Whether every group in a literal has an entry. -/
def Literal.isFilled : Literal → Bool
  | .constant _ | .list _ => true
  | .group entries => !entries.isEmpty && entries.areFilled

/-- Whether every group in the values of the entries has an entry. -/
def Entries.areFilled : Entries → Bool
  | .nil => true
  | .cons _ value _ rest => value.isFilled && rest.areFilled
end

/-! ## The characters of a literal -/

/-- The comma behind an entry, if there is one. -/
def commaChars (comma : Bool) : List Char := if comma then [','] else []

theorem Entries.toList_render_cons (name : String) (value : Literal) (comma : Bool) (rest : Entries)
    (tail : List Char) : (Entries.cons name value comma rest).render.toList ++ tail =
      name.toList ++ ':' :: (value.render.toList ++
        (commaChars comma ++ (rest.render.toList ++ tail))) := by
  have hcolon : ":".toList = [':'] := rfl
  cases comma <;> simp [Entries.render, commaChars, hcolon]

theorem Literal.toList_render_list (items : List String) (tail : List Char) :
    (Literal.list items).render.toList ++ tail = '[' :: (spaced items ++ ']' :: tail) := by
  have hopen : "[".toList = ['['] := rfl
  have hclose : "]".toList = [']'] := rfl
  simp [Literal.render, spaced, hopen, hclose]

theorem Literal.toList_render_group (entries : Entries) (tail : List Char) :
    (Literal.group entries).render.toList ++ tail =
      '\x7b' :: (entries.render.toList ++ '\x7d' :: tail) := by
  have hopen : "\x7b".toList = ['\x7b'] := rfl
  have hclose : "\x7d".toList = ['\x7d'] := rfl
  simp [Literal.render, hopen, hclose]

/-- What the first character of a literal tells. -/
inductive Literal.Shape
  | constant
  | list
  | group
deriving DecidableEq

/-- The kind of literal that starts with a character. -/
def Literal.shapeOf (x : Char) : Literal.Shape :=
  if x = '[' then .list else if x = '\x7b' then .group else .constant

/-- The kind of a literal. -/
def Literal.shape : Literal → Literal.Shape
  | .constant _ => .constant
  | .list _ => .list
  | .group _ => .group

theorem isQuote_of_isStrLit {w : List Char} (h : isStrLit w = true) :
    ∃ q rest, w = q :: rest ∧ isQuote q = true := by
  obtain ⟨q, hq, hw, -⟩ := isStrLit_cases h
  exact ⟨q, _, hw, hq⟩

theorem isWordChar_of_isQuote {x : Char} (h : isQuote x = true) : isWordChar x = false := by
  simp only [isQuote, Bool.or_eq_true, beq_iff_eq] at h
  rcases h with rfl | rfl <;> decide

/-- A string and a word do not start alike. -/
theorem string_ne_word {w v : List Char} (hw : isStrLit w = true) (hne : v ≠ [])
    (hv : v.all isWordChar = true) (a b : List Char) : w ++ a ≠ v ++ b := by
  obtain ⟨q, more, rfl, hq⟩ := isQuote_of_isStrLit hw
  obtain ⟨x, more', rfl⟩ := List.exists_cons_of_ne_nil hne
  intro h
  obtain rfl : q = x := List.head_eq_of_cons_eq h
  rw [List.all_cons, isWordChar_of_isQuote hq] at hv
  cases hv

theorem Literal.shape_head {isName : String → Bool} {l : Literal} (h : l.isWellFormed isName = true)
    (tail : List Char) : ∃ x rest, l.render.toList ++ tail = x :: rest ∧ shapeOf x = l.shape := by
  cases l with
  | constant text =>
    rw [Literal.isWellFormed] at h
    rw [Literal.render]
    rcases isValue_cases h with hstr | ⟨hne, hall⟩
    · obtain ⟨q, rest, htext, hq⟩ := isQuote_of_isStrLit hstr
      refine ⟨q, rest ++ tail, by rw [htext]; rfl, ?_⟩
      simp only [isQuote, Bool.or_eq_true, beq_iff_eq] at hq
      rcases hq with rfl | rfl <;> rfl
    · obtain ⟨x, rest, htext⟩ := List.exists_cons_of_ne_nil hne
      refine ⟨x, rest ++ tail, by rw [htext]; rfl, ?_⟩
      have hx : isWordChar x = true := List.all_eq_true.1 hall x (by rw [htext]; simp)
      have hopen : x ≠ '[' ∧ x ≠ '\x7b' := by
        constructor <;> rintro rfl <;> exact absurd hx (by decide)
      rw [shapeOf, if_neg hopen.1, if_neg hopen.2, shape]
  | list items => exact ⟨_, _, toList_render_list items tail, rfl⟩
  | group entries => exact ⟨_, _, toList_render_group entries tail, rfl⟩

/-- Texts that go on in the same way are of literals of one kind. -/
theorem Literal.shape_eq {isName : String → Bool} {l m : Literal} {a b : List Char}
    (hl : l.isWellFormed isName = true) (hm : m.isWellFormed isName = true)
    (h : l.render.toList ++ a = m.render.toList ++ b) : l.shape = m.shape := by
  obtain ⟨x, rest, hx, hshape⟩ := shape_head hl a
  obtain ⟨y, rest', hy, hshape'⟩ := shape_head hm b
  rw [hx, hy] at h
  rw [← hshape, ← hshape', (List.cons.inj h).1]

/-! ## What is read back -/

/-- The items of a list can be told from its text. -/
theorem spaced_cancel : (items items' : List String) →
    items.all (fun item => isStrLit item.toList) = true →
    items'.all (fun item => isStrLit item.toList) = true → {a b : List Char} →
    spaced items ++ ']' :: a = spaced items' ++ ']' :: b → items = items' ∧ a = b
  | [], [], _, _, a, b, h => ⟨rfl, List.tail_eq_of_cons_eq h⟩
  | [], item :: items, _, h', a, b, h => by
    rw [List.all_cons, Bool.and_eq_true] at h'
    obtain ⟨q, rest, hitem, hq⟩ := isQuote_of_isStrLit h'.1
    rw [spaced_cons, hitem] at h
    have hhead : ']' = q := List.head_eq_of_cons_eq h
    exact absurd (hhead ▸ hq) (by decide)
  | item :: items, [], hi, _, a, b, h => by
    rw [List.all_cons, Bool.and_eq_true] at hi
    obtain ⟨q, rest, hitem, hq⟩ := isQuote_of_isStrLit hi.1
    rw [spaced_cons, hitem] at h
    have hhead : q = ']' := List.head_eq_of_cons_eq h
    exact absurd (hhead ▸ hq) (by decide)
  | item :: items, item' :: items', hi, hi', a, b, h => by
    rw [List.all_cons, Bool.and_eq_true] at hi hi'
    rw [spaced_cons, spaced_cons, List.append_assoc, List.append_assoc] at h
    have hitem : item.toList = item'.toList := isStrLit_unique hi.1 hi'.1 h
    rw [hitem] at h
    have hrest := List.append_cancel_left h
    obtain rfl := String.toList_inj.1 hitem
    unfold behind at hrest
    split at hrest <;> split at hrest
    · next hnil hnil' => exact ⟨by rw [hnil, hnil'], List.tail_eq_of_cons_eq hrest⟩
    · exact absurd (List.head_eq_of_cons_eq hrest) (by decide)
    · exact absurd (List.head_eq_of_cons_eq hrest) (by decide)
    · obtain ⟨rfl, hab⟩ := spaced_cancel items items' hi.2 hi'.2 (List.tail_eq_of_cons_eq hrest)
      exact ⟨rfl, hab⟩

/-- Names are made of the characters of words and of dots. -/
def Spelling.AreWords (isName : String → Bool) : Prop :=
  ∀ w, isName w = true → w.toList ≠ [] ∧ w.toList.all isNumberTail = true

section
variable {isName : String → Bool} (hname : AreWords isName)
include hname

/-- Behind a value stands the name of the entry behind it, if no comma does, and what no word goes on
with: a colon behind a name, else a comma or a bracket. -/
theorem Entries.word_behind (comma : Bool) {rest : Entries}
    (h : rest.areWellFormed isName = true) (tail : List Char) : ∃ n stop,
    commaChars comma ++ (rest.render.toList ++ '\x7d' :: tail) = n ++ stop ∧
      n.all isWordChar = true ∧ (∀ x ∈ stop.head?, isWordChar x = false) ∧
        (n = [] ∧ stop.head? ≠ some ':' ∨ stop.head? = some ':' ∧ comma = false ∧
          ∃ name value comma' rest', rest = .cons name value comma' rest' ∧ n = name.toList) := by
  have hstops (x : Char) (hx : isWordChar x = false) : ∀ y ∈ some x, isWordChar y = false := by
    rintro y ⟨⟩
    exact hx
  cases comma with
  | true =>
    refine ⟨[], ',' :: (rest.render.toList ++ '\x7d' :: tail), rfl, rfl, ?_, .inl ⟨rfl, by simp⟩⟩
    exact hstops ',' (by decide)
  | false =>
    cases rest with
    | nil =>
      refine ⟨[], '\x7d' :: tail, rfl, rfl, ?_, .inl ⟨rfl, by simp⟩⟩
      exact hstops '\x7d' (by decide)
    | cons name value comma' rest' =>
      simp only [areWellFormed, Bool.and_eq_true] at h
      refine ⟨name.toList, _, toList_render_cons name value comma' rest' _,
        all_wordChar (fun _ hx => hx) (hname name h.1.1).2, ?_,
        .inr ⟨rfl, rfl, name, value, comma', rest', rfl, rfl⟩⟩
      exact hstops ':' (by decide)

/-- Where no value runs into the name behind it, a value can be told from what it stands in front
of. -/
theorem Entries.constant_cancel {text text' : String} {comma comma' : Bool} {rest rest' : Entries}
    {a b : List Char} (ht : isValue text = true) (ht' : isValue text' = true)
    (hr : rest.areWellFormed isName = true) (hr' : rest'.areWellFormed isName = true)
    (hb : (!comma && (Literal.constant text).runsInto isName rest) = false)
    (h : text.toList ++ (commaChars comma ++ (rest.render.toList ++ '\x7d' :: a)) =
      text'.toList ++ (commaChars comma' ++ (rest'.render.toList ++ '\x7d' :: b))) :
    text = text' := by
  rcases isValue_cases ht with hstr | ⟨hne, hall⟩ <;>
    rcases isValue_cases ht' with hstr' | ⟨hne', hall'⟩
  · exact String.toList_inj.1 (isStrLit_unique hstr hstr' h)
  · exact absurd h (string_ne_word hstr hne' hall' _ _)
  · exact absurd h.symm (string_ne_word hstr' hne hall _ _)
  · obtain ⟨n, stop, htail, hn, hstop, hbehind⟩ := word_behind hname comma hr a
    obtain ⟨n', stop', htail', hn', hstop', hbehind'⟩ := word_behind hname comma' hr' b
    rw [htail, htail', ← List.append_assoc, ← List.append_assoc] at h
    have hword : (text.toList ++ n).all isWordChar = true := by rw [List.all_append, hall, hn]; rfl
    have hword' : (text'.toList ++ n').all isWordChar = true := by
      rw [List.all_append, hall', hn']
      rfl
    obtain ⟨htake, hdrop⟩ := Scan.span_append hword hstop
    obtain ⟨htake', hdrop'⟩ := Scan.span_append hword' hstop'
    rw [h] at htake hdrop
    have hwords : text'.toList ++ n' = text.toList ++ n := htake'.symm.trans htake
    have hstops : stop' = stop := hdrop'.symm.trans hdrop
    subst hstops
    -- the character behind the word tells whether a name is a part of it
    rcases hbehind with ⟨rfl, hcolon⟩ | ⟨hcolon, rfl, name, value, _, _, rfl, rfl⟩ <;>
      rcases hbehind' with ⟨rfl, hcolon'⟩ | ⟨hcolon', rfl, name', value', _, _, rfl, rfl⟩
    · rw [List.append_nil, List.append_nil] at hwords
      exact String.toList_inj.1 hwords.symm
    · exact absurd hcolon' hcolon
    · exact absurd hcolon hcolon'
    · by_contra hne
      rw [Bool.not_false, Bool.true_and, Literal.runsInto, ← Bool.not_eq_true, isBlurred_iff] at hb
      simp only [areWellFormed, Bool.and_eq_true] at hr'
      refine hb ⟨text', name', ?_, fun h => hne h.symm, ht', hr'.1.1⟩
      rw [← String.toList_inj, String.toList_append, String.toList_append, hwords]

/-- Entries start with a character of a name. -/
theorem Entries.exists_head {name : String} {value : Literal} {comma : Bool} {rest : Entries}
    (h : (Entries.cons name value comma rest).areWellFormed isName = true) (tail : List Char) :
    ∃ x more, (Entries.cons name value comma rest).render.toList ++ tail = x :: more ∧
      isNumberTail x = true := by
  simp only [areWellFormed, Bool.and_eq_true] at h
  obtain ⟨hne, hall⟩ := hname name h.1.1
  obtain ⟨x, more, hx⟩ := List.exists_cons_of_ne_nil hne
  rw [hx] at hall
  rw [toList_render_cons, hx]
  exact ⟨x, _, rfl, (Bool.and_eq_true_iff.1 hall).1⟩

/-- A bracket in front is no entry. -/
theorem Entries.bracket_ne {name : String} {value : Literal} {comma : Bool} {rest : Entries}
    (h : (Entries.cons name value comma rest).areWellFormed isName = true) (a b : List Char) :
    '\x7d' :: a ≠ (Entries.cons name value comma rest).render.toList ++ b := by
  obtain ⟨x, more, hx, htail⟩ := exists_head hname h b
  intro heq
  rw [hx] at heq
  obtain rfl : '\x7d' = x := List.head_eq_of_cons_eq heq
  exact absurd htail (by decide)

/-- A name ends in front of its colon. -/
theorem Entries.name_cancel {name name' : String} {value value' : Literal} {comma comma' : Bool}
    {rest rest' : Entries} {a b : List Char}
    (h : (Entries.cons name value comma rest).areWellFormed isName = true)
    (h' : (Entries.cons name' value' comma' rest').areWellFormed isName = true)
    (heq : name.toList ++ ':' :: a = name'.toList ++ ':' :: b) : name = name' ∧ a = b := by
  simp only [areWellFormed, Bool.and_eq_true] at h h'
  have hcolon (tail : List Char) : ∀ x ∈ (':' :: tail).head?, isNumberTail x = false := by
    rintro x ⟨⟩
    decide
  obtain ⟨htake, hdrop⟩ := Scan.span_append (hname name h.1.1).2 (hcolon a)
  obtain ⟨htake', hdrop'⟩ := Scan.span_append (hname name' h'.1.1).2 (hcolon b)
  rw [heq] at htake hdrop
  exact ⟨String.toList_inj.1 (htake.symm.trans htake'),
    List.tail_eq_of_cons_eq (hdrop.symm.trans hdrop')⟩

/-- Entries and a bracket do not start with a comma. -/
theorem Entries.commaChars_cancel {comma comma' : Bool} {rest rest' : Entries} {a b : List Char}
    (h : rest.areWellFormed isName = true) (h' : rest'.areWellFormed isName = true)
    (heq : commaChars comma ++ (rest.render.toList ++ '\x7d' :: a) =
      commaChars comma' ++ (rest'.render.toList ++ '\x7d' :: b)) :
    comma = comma' ∧ rest.render.toList ++ '\x7d' :: a = rest'.render.toList ++ '\x7d' :: b := by
  have hcomma (es : Entries) (h : es.areWellFormed isName = true) (tail more : List Char) :
      ',' :: more ≠ es.render.toList ++ '\x7d' :: tail := by
    intro heq
    cases es with
    | nil => exact absurd (List.head_eq_of_cons_eq heq) (by decide)
    | cons name value comma rest =>
      obtain ⟨x, more, hx, htail⟩ := exists_head hname h ('\x7d' :: tail)
      rw [hx] at heq
      obtain rfl : ',' = x := List.head_eq_of_cons_eq heq
      exact absurd htail (by decide)
  cases comma <;> cases comma'
  · exact ⟨rfl, heq⟩
  · exact absurd heq.symm (hcomma rest h a _)
  · exact absurd heq (hcomma rest' h' b _)
  · exact ⟨rfl, List.tail_eq_of_cons_eq heq⟩

end

section
variable {isName : String → Bool}

mutual
/-- The text of a literal tells it and where it ends, if no value runs into the name behind it. A
constant by itself can be a part of a longer one, so it has to be known where constants end. -/
theorem Literal.render_cancel (hname : AreWords isName) : (l m : Literal) → {a b : List Char} →
    l.isWellFormed isName = true → m.isWellFormed isName = true → l.isBlurred isName = false →
    (∀ text text', l = .constant text → m = .constant text' → text = text') →
    l.render.toList ++ a = m.render.toList ++ b → l = m ∧ a = b
  | .constant text, m, a, b, hl, hm, _, hcut, h => by
    have hshape := Literal.shape_eq hl hm h
    cases m with
    | constant text' =>
      obtain rfl := hcut text text' rfl rfl
      exact ⟨rfl, List.append_cancel_left h⟩
    | list | group => cases hshape
  | .list items, m, a, b, hl, hm, _, _, h => by
    have hshape := Literal.shape_eq hl hm h
    cases m with
    | list items' =>
      rw [Literal.toList_render_list, Literal.toList_render_list] at h
      obtain ⟨rfl, hab⟩ := spaced_cancel items items' hl hm (List.tail_eq_of_cons_eq h)
      exact ⟨rfl, hab⟩
    | constant | group => cases hshape
  | .group entries, m, a, b, hl, hm, hb, _, h => by
    have hshape := Literal.shape_eq hl hm h
    cases m with
    | group entries' =>
      rw [Literal.toList_render_group, Literal.toList_render_group] at h
      obtain ⟨rfl, hab⟩ :=
        Entries.render_cancel hname entries entries' hl hm hb (List.tail_eq_of_cons_eq h)
      exact ⟨rfl, hab⟩
    | constant | list => cases hshape

/-- So does the text of entries in front of a bracket. -/
theorem Entries.render_cancel (hname : AreWords isName) : (es fs : Entries) → {a b : List Char} →
    es.areWellFormed isName = true → fs.areWellFormed isName = true →
    es.areBlurred isName = false →
    es.render.toList ++ '\x7d' :: a = fs.render.toList ++ '\x7d' :: b → es = fs ∧ a = b
  | .nil, .nil, a, b, _, _, _, h => ⟨rfl, List.tail_eq_of_cons_eq h⟩
  | .nil, .cons name value comma rest, a, b, _, hf, _, h => by
    exact absurd h (Entries.bracket_ne hname hf a _)
  | .cons name value comma rest, .nil, a, b, he, _, _, h => by
    exact absurd h.symm (Entries.bracket_ne hname he b _)
  | .cons name value comma rest, .cons name' value' comma' rest', a, b, he, hf, hb, h => by
    rw [Entries.toList_render_cons, Entries.toList_render_cons] at h
    obtain ⟨rfl, hvalues⟩ := Entries.name_cancel hname he hf h
    simp only [Entries.areWellFormed, Bool.and_eq_true] at he hf
    simp only [Entries.areBlurred, Bool.or_eq_false_iff] at hb
    obtain ⟨rfl, htails⟩ := Literal.render_cancel hname value value' he.1.2 hf.1.2 hb.1.2
      (fun text text' ht ht' => by
        subst ht ht'
        exact Entries.constant_cancel hname he.1.2 hf.1.2 he.2 hf.2 hb.1.1 hvalues) hvalues
    obtain ⟨rfl, hrests⟩ := Entries.commaChars_cancel hname he.2 hf.2 htails
    obtain ⟨rfl, hab⟩ := Entries.render_cancel hname rest rest' he.2 hf.2 hb.2 hrests
    exact ⟨rfl, hab⟩
end

/-! ## What is not -/

mutual
/-- Where a value runs into the name behind it, there is another literal with the same text. -/
theorem Literal.exists_recut : (l : Literal) → l.isWellFormed isName = true →
    l.isBlurred isName = true → ∃ m : Literal, m.isWellFormed isName = true ∧
      (l.isFilled = true → m.isFilled = true) ∧ m.render = l.render ∧ m.withCommas ≠ l.withCommas
  | .group es, h, hb => by
    obtain ⟨fs, hf, hempty, hfilled, hrender, hne⟩ := Entries.exists_recut es h hb
    refine ⟨.group fs, hf, fun h => ?_, ?_, ?_⟩
    · rw [Literal.isFilled, Bool.and_eq_true] at h ⊢
      exact ⟨by rw [hempty, h.1], hfilled h.2⟩
    · rw [Literal.render, Literal.render, hrender]
    · rw [Literal.withCommas, Literal.withCommas]
      exact fun h => hne (Literal.group.inj h)

/-- There are other entries with the same text. -/
theorem Entries.exists_recut : (es : Entries) → es.areWellFormed isName = true →
    es.areBlurred isName = true → ∃ fs : Entries, fs.areWellFormed isName = true ∧
      fs.isEmpty = es.isEmpty ∧ (es.areFilled = true → fs.areFilled = true) ∧
        fs.render = es.render ∧ fs.withCommas ≠ es.withCommas
  | .cons name value comma rest, h, hb => by
    simp only [Entries.areWellFormed, Bool.and_eq_true] at h
    rw [Entries.areBlurred, Bool.or_eq_true, Bool.or_eq_true] at hb
    rcases hb with (hb | hb) | hb
    · match value, comma, rest, hb with
      | .constant text, false, .cons name' value' comma' rest', hb =>
        obtain ⟨text', next, happ, hne, hvalue, hnext⟩ := isBlurred_iff.1 hb
        simp only [Entries.areWellFormed, Bool.and_eq_true] at h
        refine ⟨.cons name (.constant text') false (.cons next value' comma' rest'), ?_, rfl, ?_, ?_,
          ?_⟩
        · simp only [Entries.areWellFormed, Bool.and_eq_true]
          exact ⟨⟨h.1.1, hvalue⟩, ⟨hnext, h.2.1.2⟩, h.2.2⟩
        · exact fun h => h
        · have hword (tail : String) : text' ++ (next ++ tail) = text ++ (name' ++ tail) := by
            rw [← String.append_assoc, happ, String.append_assoc]
          simp [Entries.render, Literal.render, String.append_assoc, hword]
        · simp [Entries.withCommas, Literal.withCommas, hne]
    · obtain ⟨value', hv, hfilled, hrender, hne⟩ := Literal.exists_recut value h.1.2 hb
      refine ⟨.cons name value' comma rest, ?_, rfl, fun h => ?_, ?_, ?_⟩
      · simp only [Entries.areWellFormed, Bool.and_eq_true]
        exact ⟨⟨h.1.1, hv⟩, h.2⟩
      · rw [Entries.areFilled, Bool.and_eq_true] at h ⊢
        exact ⟨hfilled h.1, h.2⟩
      · rw [Entries.render, Entries.render, hrender]
      · rw [Entries.withCommas, Entries.withCommas]
        exact fun h => hne (Entries.cons.inj h).2.1
    · obtain ⟨rest', hr, -, hfilled, hrender, hne⟩ := Entries.exists_recut rest h.2 hb
      refine ⟨.cons name value comma rest', ?_, rfl, fun h => ?_, ?_, ?_⟩
      · simp only [Entries.areWellFormed, Bool.and_eq_true]
        exact ⟨h.1, hr⟩
      · rw [Entries.areFilled, Bool.and_eq_true] at h ⊢
        exact ⟨h.1, hfilled h.2⟩
      · rw [Entries.render, Entries.render, hrender]
      · rw [Entries.withCommas, Entries.withCommas]
        exact fun h => hne (Entries.cons.inj h).2.2.2
end

end

end ProtoIdl
