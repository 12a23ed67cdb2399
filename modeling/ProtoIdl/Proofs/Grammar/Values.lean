import ProtoIdl.Proofs.Constant
import ProtoIdl.Proofs.Recovery.Literals
import ProtoIdl.Proofs.Token.Verbatim
/-!
# Values as they are read

Whatever the reader stands in front of, what it reads as a value is one (`Spelling.isValue`), and a
literal that it reads is made of names, values and lists as the grammar has them. A name that is read
as a value does not start with a word for a literal: in the mode for literals that word would have been
one, and the reader looks at the same word twice. Main statement: `Grammar.literal_legible`.
-/
namespace ProtoIdl

open Spelling
open Text (isIdentStart isIdentChar)

/-! ## A word that is read twice -/

namespace Scan

variable {m m' : Mode} {c d : Cursor} {t : Token}

/-- An identifier starts with a character that identifiers start with. -/
theorem token_ident_head (h : token m c = .ok (t, d)) (hk : t.kind = .ident) :
    ∃ x more, c.rest = x :: more ∧ isIdentStart x = true := by
  have hspelled := (token_spelled m c).ok h
  rw [Token.Spelled, hk] at hspelled
  have herror := ((token_found m c).ok h).error_eq (by simp [hk])
  obtain ⟨w, htext, hcover⟩ := (token_verbatim m c).ok h (by simp [hk]) herror
  rw [List.nil_append] at htext
  cases hw : t.text.toList with
  | nil =>
    rw [hw] at hspelled
    cases hspelled
  | cons x more =>
    rw [hw] at hspelled
    exact ⟨x, _, by rw [hcover.2, ← htext, hw]; rfl, (Bool.and_eq_true_iff.1 hspelled).1⟩

/-- What is an identifier under one mode is the same word under every mode. -/
theorem token_ident_again (h : token m c = .ok (t, d)) (hk : t.kind = .ident) (m' : Mode) :
    wordKind m t.text = .ident ∧ token m' c = .ok ({ t with kind := wordKind m' t.text }, d) := by
  obtain ⟨x, more, hc, hx⟩ := token_ident_head h hk
  rw [token_of_identStart m hc hx, word] at h
  rw [token_of_identStart m' hc hx, word]
  cases hrun : run isIdentChar c with
  | error e =>
    rw [run_bind_error hrun] at h
    cases h
  | ok a =>
    rw [run_bind hrun] at h ⊢
    obtain ⟨rfl, rfl⟩ := Prod.mk.inj (Except.ok.inj h)
    exact ⟨hk, rfl⟩

/-- Nothing is passed over in front of a word. -/
theorem gap_of_word {x : Char} {more : List Char} (hc : c.rest = x :: more)
    (hx : isIdentStart x = true) : gap c = .ok (false, c) := by
  have hplain : isBlank x = false ∧ x ≠ '/' := by
    constructor
    · rw [← Bool.not_eq_true]
      intro hb
      simp only [isBlank, Bool.or_eq_true, beq_iff_eq, or_assoc] at hb
      rcases hb with rfl | rfl | rfl | rfl <;> exact absurd hx (by decide)
    · rintro rfl
      exact absurd hx (by decide)
  have htake : c.rest.takeWhile isBlank = [] := by
    rw [hc, List.takeWhile_cons_of_neg (by simp [hplain.1])]
  have hrun : run isBlank c = .ok ([], c) := by
    simp [run, htake, Cursor.peek_of_rest hc, bind, Except.bind, pure, Except.pure]
  rw [gap, run_bind hrun, run_bind (run_peek (Cursor.peek_of_rest hc)), if_neg (by simpa using hplain.2)]
  rfl

end Scan

/-- A word in front of a stream is scanned. -/
theorem TokenStream.scan_word {m : Mode} {s : TokenStream} {x : Char} {more : List Char} {t : Token}
    {d : Cursor} (hc : s.source.current.rest = x :: more) (hx : isIdentStart x = true)
    (h : Scan.token m s.source.current = .ok (t, d)) : (s.scan m).1 = t := by
  have hlead (rounds : Nat) : ∃ source, s.source.lead m rounds [] = (.clear, [], source) ∧
      source.current = s.source.current := by
    cases rounds with
    | zero => exact ⟨s.source, rfl, rfl⟩
    | succ rounds =>
      refine ⟨s.source.moveTo s.source.current, ?_, rfl⟩
      rw [Source.lead, Source.take, Scan.gap_of_word hc hx]
  obtain ⟨source, hlead, hcurrent⟩ := hlead s.rounds
  rw [scan, hlead]
  dsimp only
  rw [Source.take, Source.current_mark, hcurrent, h]

/-- An identifier that is put back is the same word under every mode. -/
theorem Reader.next_again {m : Mode} {r r' : Reader} (hk : (r.next m).token.kind = .ident)
    (h : (r.next m).putBack = .ok r') (m' : Mode) :
    Scan.wordKind m (r.next m).token.text = .ident ∧
      (r'.next m').token.text = (r.next m).token.text := by
  have htoken := TokenStream.token_of_kind (s := r.stream) hk nofun nofun
  obtain ⟨x, more, hc, hx⟩ := Scan.token_ident_head htoken hk
  obtain ⟨hword, hagain⟩ := Scan.token_ident_again htoken hk m'
  have hsource : r'.stream.source.current = (r.stream.scan m).2.source.marked := by
    obtain rfl := Except.ok.inj h
    rfl
  refine ⟨hword, ?_⟩
  rw [← hsource] at hc hagain
  have hscan := TokenStream.scan_word hc hx hagain
  change (r'.stream.scan m').1.text = (r.stream.scan m).1.text
  rw [hscan]

theorem isDots_concat {ts : List String} {part : String} (h : isDots ts = true)
    (hpart : isIdent part.toList = true) : isDots (ts ++ [".", part]) = true := by
  induction ts using isDots.induct with
  | case1 => simp [isDots, hpart]
  | case2 => cases h
  | case3 dot first rest ih =>
    simp only [isDots, Bool.and_eq_true] at h
    simp only [List.cons_append, isDots, Bool.and_eq_true]
    exact ⟨h.1, ih h.2⟩

namespace Grammar

open Reading

variable {r : Reader}

/-! ## Names and values -/

theorem dotted_tokens (name : String) : Sat (dotted name) r
    (fun w _ => ∃ ts, isDots ts = true ∧ w = name ++ String.join ts) fun _ => True := by
  refine sat_repeatFrom (I := fun w _ => ∃ ts, isDots ts = true ∧ w = name ++ String.join ts)
    ⟨[], rfl, by simp⟩ ?_ trivial
  rintro _ r ⟨ts, hts, rfl⟩
  refine (sat_trivial (accept .dot) r).bind fun dot r _ => ?_
  split
  · refine (expectIdent_spelled "ident").bind fun part r hpart => sat_pure ?_
    refine ⟨ts ++ [".", part], isDots_concat hts hpart, ?_⟩
    simp [String.join_append, String.append_assoc]
  · exact sat_pure ⟨ts, hts, rfl⟩

/-- A name goes on from the word that comes next. -/
theorem fullIdent_tokens : Sat fullIdent r (fun a _ => ∃ ts,
    isFullIdent ((r.next .plain).token.text :: ts) = true ∧
      a.1 = String.join ((r.next .plain).token.text :: ts)) fun _ => True := by
  have hfirst : Sat (expectIdent "ident") r
      (fun w _ => w = (r.next .plain).token.text ∧ isIdent w.toList = true) fun _ => True := by
    refine (next_sat .plain).bind ?_
    rintro kind _ ⟨rfl, rfl⟩
    split
    · next hk =>
      have h := r.spelled_next .plain
      rw [Token.Spelled, hk] at h
      exact sat_text ⟨rfl, h⟩
    · exact reject_sat trivial
  refine hfirst.bind ?_
  rintro _ r' ⟨rfl, hident⟩
  refine sat_position_bind ((dotted_tokens _).bind ?_)
  rintro _ _ ⟨ts, hts, rfl⟩
  refine sat_pure ⟨ts, ?_, String.join_cons.symm⟩
  rw [isFullIdent, hident, hts]
  rfl

/-- What is an identifier where literals are wanted is no word for one. -/
theorem not_startsWith_literal {first : String} {ts : List String}
    (h : Scan.wordKind .literal first = .ident) :
    startsWith ["true", "false", "inf", "nan"] (first :: ts) = false := by
  rw [← Bool.not_eq_true, startsWith_cons]
  intro hmem
  simp only [List.mem_cons, List.not_mem_nil, or_false] at hmem
  rcases hmem with rfl | rfl | rfl | rfl <;> exact absurd h (by decide)

/-- A sign and a number make a value. -/
theorem isValue_signed {x : Char} {sign number : String} (hsign : sign.toList = [x])
    (hx : isSign x = true) (hn : isNumber number.toList = true) : isValue (sign ++ number) = true := by
  have hchars : (sign ++ number).toList = x :: number.toList := by
    rw [String.toList_append, hsign]
    rfl
  by_cases hhead : number.toList.head?.any isSign = true
  · rw [isValue, hchars, isTwiceSigned, hx, hhead, hn]
    simp
  · have hnumber := isNumber_cons hx hn (by simpa using hhead)
    rw [isValue, isConstant, isLiteral, hchars, hnumber]
    simp

theorem constant?_value (curly : Bool) : Sat (constant? curly) r
    (fun a _ => ∀ w, a.1 = some w → isValue w = true) fun _ => True := by
  have hspelled := r.spelled_next .literal
  refine (next_sat .literal).bind ?_
  rintro kind _ ⟨rfl, rfl⟩
  refine sat_position_bind ?_
  split
  · next hlit =>
    refine sat_text_bind (sat_pure ?_)
    rintro _ ⟨⟩
    rw [isValue, isConstant, hspelled.literal hlit]
    rfl
  · split
    case h_1 hk =>
      refine (putBack_sat .literal).bind ?_
      rintro _ r' ⟨hback, -, -⟩
      obtain ⟨hword, hagain⟩ := Reader.next_again hk hback .plain
      refine fullIdent_tokens.bind ?_
      rintro ⟨name, start⟩ _ ⟨ts, hfull, hname⟩
      refine sat_pure ?_
      rintro _ ⟨⟩
      rw [isValue, isConstant, show name = _ from hname, nameTokens_join hfull, hfull]
      rw [← hagain] at hword
      rw [not_startsWith_literal hword]
      simp
    case h_2 hk | h_3 hk =>
      obtain ⟨x, hsign, hx⟩ := hspelled.sign (by simp [hk])
      refine sat_text_bind ((next_sat .literal).bind ?_)
      rintro kind _ ⟨rfl, rfl⟩
      have hnumber := ((r.next .literal).spelled_next .literal)
      split
      case h_1 hn | h_2 hn =>
        refine sat_text_bind (sat_pure ?_)
        rintro _ ⟨⟩
        exact isValue_signed hsign hx (hnumber.number (by simp [hn]))
      case h_3 => exact reject_sat trivial
    case h_4 =>
      split
      · refine (sat_trivial putBack _).bind fun _ _ _ => sat_pure ?_
        rintro _ ⟨⟩
      · exact reject_sat trivial
    case h_5 => exact reject_sat trivial

/-! ## Literals -/

theorem stringList_spelled : Sat stringList r
    (fun items _ => items.all (fun item => isStrLit item.toList) = true) fun _ => True := by
  refine (sat_trivial (expectDelimiter .leftBracket "[") r).bind fun _ r _ => ?_
  refine sat_repeatFrom (I := fun items _ => items.all (fun item => isStrLit item.toList) = true)
    rfl (fun items r hitems => ?_) trivial
  refine (sat_trivial (peek .plain) r).bind fun kind r _ => ?_
  split
  · exact (sat_trivial (next .plain) r).bind fun _ _ _ => sat_pure hitems
  · have hitem : Sat (expect .string .stringLit "strLit") r
        (fun w _ => isStrLit w.toList = true) fun _ => True := by
      refine (next_sat .string).bind ?_
      rintro kind _ ⟨rfl, rfl⟩
      split
      · next hk =>
        have h := r.spelled_next .string
        rw [Token.Spelled, hk] at h
        exact sat_text h
      · exact reject_sat trivial
    refine hitem.bind fun item r hitem => ?_
    have hmore : (items ++ [item]).all (fun item => isStrLit item.toList) = true := by
      rw [List.all_append, hitems, List.all_cons, hitem]
      rfl
    refine (sat_trivial (peek .plain) r).bind fun kind r _ => ?_
    split
    · exact (sat_trivial (next .plain) r).bind fun _ _ _ => sat_pure hmore
    · exact sat_pure hmore

end Grammar

/-- A literal as it is read for a validator: well formed, and without empty groups. -/
structure Literal.Legible (l : Literal) : Prop where
  wellFormed : l.isWellFormed isKey = true
  filled : l.isFilled = true

/-- Entries as they are read for a validator. -/
structure Entries.Legible (es : Entries) : Prop where
  wellFormed : es.areWellFormed isKey = true
  filled : es.areFilled = true

theorem Entries.legible_nil : Entries.nil.Legible := ⟨rfl, rfl⟩

theorem Entries.Legible.cons {name : String} {value : Literal} {comma : Bool} {es : Entries}
    (hname : isKey name = true) (hvalue : value.Legible) (h : es.Legible) :
    (Entries.cons name value comma es).Legible where
  wellFormed := by rw [areWellFormed, hname, hvalue.wellFormed, h.wellFormed]; rfl
  filled := by rw [areFilled, hvalue.filled, h.filled]; rfl

theorem Entries.Legible.push {name : String} {value : Literal} {comma : Bool} :
    {es : Entries} → es.Legible → isKey name = true → value.Legible →
      (es.push name value comma).Legible
  | .nil, _, hname, hvalue => legible_nil.cons hname hvalue
  | .cons n v c rest, h, hname, hvalue => by
    obtain ⟨hwell, hfilled⟩ := h
    simp only [areWellFormed, areFilled, Bool.and_eq_true] at hwell hfilled
    have hrest : rest.Legible := ⟨hwell.2, hfilled.2⟩
    exact (hrest.push hname hvalue).cons hwell.1.1 ⟨hwell.1.2, hfilled.1⟩

@[simp]
theorem Entries.isEmpty_push (name : String) (value : Literal) (comma : Bool) (es : Entries) :
    (es.push name value comma).isEmpty = false := by
  cases es <;> rfl

theorem Literal.legible_group {es : Entries} (h : es.Legible) (hne : es.isEmpty = false) :
    (Literal.group es).Legible where
  wellFormed := h.wellFormed
  filled := by rw [isFilled, hne, h.filled]; rfl

namespace Grammar

open Reading

section
variable {r : Reader} {nested : Reading Entries}
  (hnested : ∀ r, Sat nested r (fun es _ => es.Legible ∧ es.isEmpty = false) fun _ => True)
include hnested

theorem literalValue_legible :
    Sat (literalValue nested) r (fun l _ => l.Legible) fun _ => True := by
  refine (sat_trivial (peek .plain) r).bind fun kind r _ => ?_
  split
  · exact stringList_spelled.bind fun items r hitems => sat_pure ⟨hitems, rfl⟩
  · refine (constant?_value true).bind ?_
    rintro ⟨_ | text, start⟩ r hvalue
    · exact (hnested r).bind fun es r hes => sat_pure (Literal.legible_group hes.1 hes.2)
    · exact sat_pure ⟨hvalue text rfl, rfl⟩

theorem entriesRound_legible {entries : Entries} (h : entries.Legible) :
    Sat (entriesRound nested entries) r (fun a _ => match a with
      | .again s => s.Legible
      | .done es => es.Legible ∧ es.isEmpty = false) fun _ => True := by
  refine (expectIdent_spelled "ident").bind fun name r hname => ?_
  refine (sat_trivial (expectDelimiter .colon ":") r).bind fun _ r _ => ?_
  refine (literalValue_legible hnested).bind fun value r hvalue => ?_
  have hpush (comma : Bool) : (entries.push name value comma).Legible := h.push hname hvalue
  refine (sat_trivial (next .plain) r).bind fun kind r _ => ?_
  split
  · refine (sat_trivial (peek .plain) r).bind fun kind r _ => ?_
    split
    · exact (sat_trivial (next .plain) r).bind fun _ r _ =>
        sat_pure ⟨hpush true, Entries.isEmpty_push _ _ _ _⟩
    · exact sat_pure (hpush true)
  · exact sat_pure ⟨hpush false, Entries.isEmpty_push _ _ _ _⟩
  · exact (sat_trivial putBack r).bind fun _ r _ => sat_pure (hpush false)

end

theorem entriesAtMost_legible (depth : Nat) (r : Reader) :
    Sat (entriesAtMost depth) r (fun es _ => es.Legible ∧ es.isEmpty = false) fun _ => True := by
  induction depth generalizing r with
  | zero => exact sat_throw trivial
  | succ depth ih =>
    refine (sat_trivial (expectDelimiter .leftBrace "\x7b") r).bind fun _ r _ => ?_
    exact sat_repeatFrom (I := fun entries _ => entries.Legible) Entries.legible_nil
      (fun entries r h => (entriesRound_legible ih h).mono fun a _ ha => by cases a <;> exact ha)
      trivial

/-- What is read as a literal is spelled as the grammar has it. -/
theorem literal_legible (r : Reader) : Sat literal r
    (fun l _ => l.Legible ∧ ∃ es, l = .group es) fun _ => True := by
  refine sat_get.bind ?_
  rintro _ r ⟨rfl, rfl⟩
  exact (entriesAtMost_legible _ _).bind fun es r hes =>
    sat_pure ⟨Literal.legible_group hes.1 hes.2, es, rfl⟩

end Grammar

end ProtoIdl
