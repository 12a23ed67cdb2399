import ProtoIdl.Parse
import ProtoIdl.Proofs.Grammar.Reading
import ProtoIdl.Proofs.Token.Spelled
import ProtoIdl.Proofs.Tree.Render
/-!
# What is read as a constant

A constant is a literal or a name (`Spelling.IsConstant`). The sign of a number is part of its token
if it stands right in front of it, and is put in front by `Grammar.constant?` if it is a token of its
own. Neither looks for the other: a sign in front of a number that has one is taken too, and what is
read is no constant (`Reader.SignsTwice`). Everything else that is read is one. Main statement:
`constant_spelled`.
-/
namespace ProtoIdl

open Spelling

/-- `ident { "." ident }` -/
inductive Spelling.IsFullIdent : List Char → Prop
  | ident {w : List Char} (h : isIdent w = true) : IsFullIdent w
  | dot {v w : List Char} (hv : IsFullIdent v) (hw : isIdent w = true) :
    IsFullIdent (v ++ '.' :: w)

/-- `fullIdent | [ sign ] intLit | [ sign ] floatLit | strLit | boolLit`, with at most one sign. -/
def Spelling.IsConstant (w : String) : Prop := isLiteral w = true ∨ IsFullIdent w.toList

/-- The next token is a sign, and the one behind it a number with a sign of its own. -/
def Reader.SignsTwice (r : Reader) : Prop :=
  (r.next .literal).token.kind ∈ [Kind.delimiter .minus, .delimiter .plus] ∧
    ((r.next .literal).next .literal).token.kind ∈ [Kind.intLit, .floatLit] ∧
      ((r.next .literal).next .literal).token.text.toList.head?.any isSign = true

namespace Spelling

variable {w : List Char}

theorem IsFullIdent.head (h : IsFullIdent w) :
    ∃ x rest, w = x :: rest ∧ Text.isIdentStart x = true := by
  induction h with
  | @ident w h =>
    cases w with
    | nil => cases h
    | cons x rest => exact ⟨x, rest, rfl, (Bool.and_eq_true_iff.1 h).1⟩
  | dot _ _ ih =>
    obtain ⟨x, rest, rfl, hx⟩ := ih
    exact ⟨x, _, rfl, hx⟩

/-- A number with its sign taken off starts with no other. -/
theorem isNumber_head (h : isNumber w = true) : ∀ x ∈ (dropSign w).head?, isSign x = false := by
  rcases Scan.isNumber_cases h with h | h | h
  · exact Scan.isIntLit_unsigned h
  · exact Scan.isFloatLit_unsigned h
  · rcases h with h | h <;> simp [h, isSign]

/-- Behind two signs nothing is a constant. -/
theorem not_isConstant {v : String} {x y : Char} {rest : List Char} (hv : v.toList = x :: y :: rest)
    (hx : isSign x = true) (hy : isSign y = true) : ¬ IsConstant v := by
  have hx' : x = '+' ∨ x = '-' := Scan.isSign_cases hx
  rintro (hlit | hname)
  · simp only [isLiteral, Bool.or_eq_true, beq_iff_eq, ← String.toList_inj, hv] at hlit
    rcases hlit with ((hstr | hnum) | htrue) | hfalse
    · rcases hx' with rfl | rfl <;> cases hstr
    · have := isNumber_head hnum y (by simp [dropSign, hx])
      exact absurd hy (by simp [this])
    · rcases hx' with rfl | rfl <;> exact absurd (List.cons.inj htrue).1 (by decide)
    · rcases hx' with rfl | rfl <;> exact absurd (List.cons.inj hfalse).1 (by decide)
  · obtain ⟨x', rest', heq, hstart⟩ := hname.head
    rw [hv] at heq
    obtain ⟨rfl, -⟩ := List.cons.inj heq
    rcases hx' with rfl | rfl <;> exact absurd hstart (by decide)

/-- A sign in front of a number without one makes a number. -/
theorem isNumber_cons {x : Char} (hx : isSign x = true) (hw : isNumber w = true)
    (hhead : w.head?.any isSign = false) : isNumber (x :: w) = true := by
  have hdrop : dropSign w = w := by
    cases w with
    | nil => rfl
    | cons y rest =>
      have hy : isSign y = false := by simpa using hhead
      simp [dropSign, hy]
  rw [isNumber, dropSign, if_pos hx]
  rwa [isNumber, hdrop] at hw

end Spelling

namespace Token

variable {t : Token}

/-- A token that is a number is spelled as one. -/
theorem Spelled.number (h : t.Spelled) (hk : t.kind ∈ [Kind.intLit, .floatLit]) :
    isNumber t.text.toList = true := by
  simp only [List.mem_cons, List.not_mem_nil, or_false] at hk
  rw [Spelled] at h
  rw [isNumber]
  rcases hk with hk | hk <;> rw [hk] at h
  · rw [show isIntLit _ = true from h]
    rfl
  · rcases h with h | h | h <;> simp [h]

theorem Spelled.literal (h : t.Spelled) (hk : t.kind.isLiteral = true) :
    isLiteral t.text = true := by
  rw [isLiteral]
  cases hkind : t.kind
  case intLit | floatLit => simp [h.number (by simp [hkind])]
  case stringLit =>
    rw [Spelled, hkind] at h
    simp [show isStrLit _ = true from h]
  case boolLit =>
    rw [Spelled, hkind] at h
    rcases h with h | h <;> simp [String.toList_inj.1 h]
  all_goals
    rw [hkind] at hk
    cases hk

/-- A token that is a sign is one character. -/
theorem Spelled.sign (h : t.Spelled) (hk : t.kind ∈ [Kind.delimiter .minus, .delimiter .plus]) :
    ∃ x, t.text.toList = [x] ∧ isSign x = true := by
  simp only [List.mem_cons, List.not_mem_nil, or_false] at hk
  rw [Spelled] at h
  rcases hk with hk | hk <;> rw [hk] at h
  all_goals
    obtain ⟨x, htext, hx⟩ := h
    refine ⟨x, htext, ?_⟩
    revert hx
    fun_cases Delimiter.ofChar? x <;> simp [isSign]

end Token

namespace Grammar

open Reading

variable {r : Reader}

theorem expectIdent_spelled (expected : String) :
    Sat (expectIdent expected) r (fun w _ => isIdent w.toList = true) fun _ => True := by
  refine (next_sat .plain).bind ?_
  rintro kind _ ⟨rfl, rfl⟩
  split
  · next hk =>
    have h := r.spelled_next .plain
    rw [Token.Spelled, hk] at h
    exact sat_text h
  · exact reject_sat trivial

theorem dotted_spelled {name : String} (h : IsFullIdent name.toList) :
    Sat (dotted name) r (fun w _ => IsFullIdent w.toList) fun _ => True := by
  refine sat_repeatFrom (I := fun w _ => IsFullIdent w.toList) h (fun name r h => ?_) trivial
  refine (sat_trivial (accept .dot) r).bind fun dot r _ => ?_
  split
  · refine (expectIdent_spelled "ident").bind fun part r hpart => sat_pure ?_
    simpa using h.dot hpart
  · exact sat_pure h

theorem fullIdent_spelled :
    Sat fullIdent r (fun a _ => IsFullIdent a.1.toList) fun _ => True :=
  (expectIdent_spelled "ident").bind fun _ _ hfirst => sat_position_bind
    ((dotted_spelled (.ident hfirst)).bind fun _ _ hname => sat_pure hname)

/-- What is read as a constant: a constant, or a sign in front of a signed number. -/
def Constant (r : Reader) (w : String) : Prop :=
  (IsConstant w ↔ ¬ r.SignsTwice) ∧
    (r.SignsTwice → ∃ x n, w.toList = x :: n ∧ isSign x = true ∧ n.head?.any isSign = true ∧
      isNumber n = true)

/-- Without a sign in front it is a constant. -/
theorem constant_of_unsigned {w : String}
    (hk : (r.next .literal).token.kind ∉ [Kind.delimiter .minus, .delimiter .plus])
    (hw : IsConstant w) : Constant r w :=
  ⟨⟨fun _ h => hk h.1, fun _ => hw⟩, fun h => absurd h.1 hk⟩

/-- A sign that is a token of its own, and a number behind it. -/
theorem constant_of_signed
    (hk : (r.next .literal).token.kind ∈ [Kind.delimiter .minus, .delimiter .plus])
    (hn : ((r.next .literal).next .literal).token.kind ∈ [Kind.intLit, .floatLit]) :
    Constant r ((r.next .literal).token.text ++ ((r.next .literal).next .literal).token.text) := by
  obtain ⟨x, hsign, hx⟩ := (r.spelled_next .literal).sign hk
  have hnumber := ((r.next .literal).spelled_next .literal).number hn
  unfold Constant Reader.SignsTwice
  generalize ((r.next .literal).next .literal).token = t at hn hnumber ⊢
  have htext : ((r.next .literal).token.text ++ t.text).toList = x :: t.text.toList := by
    rw [String.toList_append, hsign]
    rfl
  refine ⟨⟨fun hconst => ?_, fun h => ?_⟩, fun h => ⟨x, _, htext, hx, h.2.2, hnumber⟩⟩
  · rintro ⟨-, -, hhead⟩
    obtain ⟨y, rest, hrest, hy⟩ : ∃ y rest, t.text.toList = y :: rest ∧ isSign y = true := by
      cases h : t.text.toList with
      | nil => simp [h] at hhead
      | cons y rest => exact ⟨y, rest, rfl, by simpa [h] using hhead⟩
    exact not_isConstant (by rw [htext, hrest]) hx hy hconst
  · have hhead : t.text.toList.head?.any isSign = false := by
      rw [← Bool.not_eq_true]
      exact fun hhead => h ⟨hk, hn, hhead⟩
    refine .inl ?_
    rw [isLiteral, htext, isNumber_cons hx hnumber hhead]
    simp

theorem constant?_spelled (curly : Bool) : Sat (constant? curly) r
    (fun a _ => ∀ w, a.1 = some w → Constant r w) fun _ => True := by
  have hspelled := r.spelled_next .literal
  refine (next_sat .literal).bind ?_
  rintro kind _ ⟨rfl, rfl⟩
  refine sat_position_bind ?_
  split
  · next hlit =>
    refine sat_text_bind (sat_pure ?_)
    rintro _ ⟨⟩
    refine constant_of_unsigned (fun h => ?_) (.inl (hspelled.literal hlit))
    simp only [List.mem_cons, List.not_mem_nil, or_false] at h
    rcases h with h | h <;> rw [h] at hlit <;> cases hlit
  · split
    case h_1 hk =>
      refine (sat_trivial putBack _).bind fun _ d _ => fullIdent_spelled.bind fun name _ hname =>
        sat_pure ?_
      rintro _ ⟨⟩
      exact constant_of_unsigned (by simp [hk]) (.inr hname)
    case h_2 hk | h_3 hk =>
      refine sat_text_bind ((next_sat .literal).bind ?_)
      rintro kind _ ⟨rfl, rfl⟩
      split
      case h_1 hn | h_2 hn =>
        refine sat_text_bind (sat_pure ?_)
        rintro _ ⟨⟩
        exact constant_of_signed (by simp [hk]) (by simp [hn])
      case h_3 => exact reject_sat trivial
    case h_4 =>
      split
      · exact (sat_trivial putBack _).bind fun _ _ _ => sat_pure nofun
      · exact reject_sat trivial
    case h_5 => exact reject_sat trivial

end Grammar

/-- What is read as a constant is one, unless its sign stands in front of a number that has a sign: then
it is that number with a second sign. -/
theorem constant_spelled {curly : Bool} {r r' : Reader} {w : String} {p : Position}
    (h : Grammar.constant? curly r = .ok (some w, p) r') :
    (IsConstant w ↔ ¬ r.SignsTwice) ∧
      (r.SignsTwice → ∃ x n, w.toList = x :: n ∧ isSign x = true ∧ n.head?.any isSign = true ∧
        isNumber n = true) :=
  (Grammar.constant?_spelled curly).ok h w rfl

/-- What is read as a constant from the start of a text. -/
def constantOf (text : String) : Option String :=
  ((Grammar.constant? false).run' (Reader.ofBytes (Utf8.encode text.toList) "")).bind (·.1)

theorem exists_constant {text w : String} (h : constantOf text = some w) : ∃ p r',
    Grammar.constant? false (Reader.ofBytes (Utf8.encode text.toList) "") = .ok (some w, p) r' := by
  obtain ⟨⟨_, p⟩, hrun, rfl⟩ := Option.bind_eq_some_iff.1 h
  obtain ⟨r', hok⟩ := Reading.exists_run hrun
  exact ⟨p, r', hok⟩

/-- A comment may stand between the sign and the number. -/
theorem constant_spelled_sample : ∃ p r',
    Grammar.constant? false (Reader.ofBytes (Utf8.encode "- /* a */ .5".toList) "") =
      .ok (some "-.5", p) r' ∧ IsConstant "-.5" := by
  have hone : ¬ (Reader.ofBytes (Utf8.encode "- /* a */ .5".toList) "").SignsTwice := by
    unfold Reader.SignsTwice
    decide +kernel
  have hrun : constantOf "- /* a */ .5" = some "-.5" := by decide +kernel
  obtain ⟨p, r', h⟩ := exists_constant hrun
  exact ⟨p, r', h, (constant_spelled h).1.2 hone⟩

/-- Two signs in front of a number, with a blank between them. -/
theorem constant_signed_twice : ∃ p r',
    Grammar.constant? false (Reader.ofBytes (Utf8.encode "- -5".toList) "") =
      .ok (some "--5", p) r' ∧ ¬ IsConstant "--5" := by
  have hrun : constantOf "- -5" = some "--5" := by decide +kernel
  have hchars : "--5".toList = ['-', '-', '5'] := by decide
  obtain ⟨p, r', h⟩ := exists_constant hrun
  exact ⟨p, r', h, not_isConstant hchars rfl rfl⟩

end ProtoIdl
