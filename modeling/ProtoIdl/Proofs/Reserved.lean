import ProtoIdl.Proofs.Grammar.Skipped
import ProtoIdl.Proofs.Proper
/-!
# What is reserved is what is written

The node of a reserved statement and its text tell the same. Between the keyword and the semicolon stand
the items of the node, in their order and with single commas between them, and besides them only white
space and comments (`ReservedText`). The items are numbers or names and not both, and a name is joined
from the literals that stand there. The numbers are read in a mode that allows for signs, so each may
have one. Main statement: `reserved_written`.
-/
namespace ProtoIdl

open Spelling
open Scan (isQuote)

/-! ## The text of a statement -/

/-- An integer with at most one sign. -/
def Spelling.isSignedInt (w : String) : Bool := isIntLit (dropSign w.toList)

/-- The numbers of a range; there is no last one, or it may be `max`. -/
structure NumberRange.Spelled (x : NumberRange) : Prop where
  first : isSignedInt x.first = true
  last : x.last = "" ∨ x.last = "max" ∨ isSignedInt x.last = true

/-- The range stands in front of `t`, which is the rest of `s`. -/
inductive NumberRange.Written (x : NumberRange) : List Char → List Char → Prop
  | single {s t : List Char} (hl : x.last = "") (h : Skips s (x.first.toList ++ t)) : Written x s t
  | pair {s t u v : List Char} (hl : x.last ≠ "") (h : Skips s (x.first.toList ++ u))
      (hto : Skips u ("to".toList ++ v)) (hlast : Skips v (x.last.toList ++ t)) : Written x s t

/-- The literals that the name is joined from stand in front of `t`, which is the rest of `s`. -/
def NameWritten (name : String) (s t : List Char) : Prop :=
  ∃ ls : List Quoted, ls ≠ [] ∧ Skips s (ls.flatMap Quoted.chars ++ t) ∧
    name.toList = Quoted.join ls

/-- The items stand in front of `t`, which is the rest of `s`, with a comma between each two. -/
inductive Series {α : Type} (Written : α → List Char → List Char → Prop) :
    List α → List Char → List Char → Prop
  | one {x : α} {s t : List Char} (h : Written x s t) : Series Written [x] s t
  | more {xs : List α} {x : α} {s t u v : List Char} (h : Series Written xs s t)
      (hc : Skips t (',' :: u)) (hx : Written x u v) : Series Written (xs ++ [x]) s v

/-- The statement stands in front of `t`, which is the rest of `s`. -/
def ReservedText (x : Reserved) (s t : List Char) : Prop :=
  ∃ u v, Skips s ("reserved".toList ++ u) ∧
    (x.names = [] ∧ Series NumberRange.Written x.ranges u v ∨
      x.ranges = [] ∧ Series NameWritten x.names u v) ∧ Skips v (';' :: t)

namespace Grammar

open Reading

variable {r : Reader} {x : Char} {s : List Char}

/-! ## Items -/

/-- What the word or the comma in front of an item starts with. -/
def IsBefore (x : Char) : Prop := x ∈ ['r', ',', 't']

/-- What the last token of an item starts with. -/
def IsOfItem (x : Char) : Prop :=
  Text.isDigit x = true ∨ isSign x = true ∨ x = 'm' ∨ isQuote x = true

theorem IsBefore.isSolid (h : IsBefore x) : IsSolid x := by
  simp only [IsBefore, List.mem_cons, List.not_mem_nil, or_false] at h
  rcases h with rfl | rfl | rfl <;> exact ⟨by decide, by decide⟩

theorem IsBefore.not_isOfItem (h : IsBefore x) : ¬ IsOfItem x := by
  simp only [IsBefore, List.mem_cons, List.not_mem_nil, or_false] at h
  rcases h with rfl | rfl | rfl <;> unfold IsOfItem <;> decide

theorem IsOfItem.isSolid (h : IsOfItem x) : IsSolid x := by
  refine ⟨Bool.eq_false_iff.2 fun hb => ?_, ?_⟩
  · have hblank : x = ' ' ∨ x = '\t' ∨ x = '\r' ∨ x = '\n' := by
      simpa [Scan.isBlank, or_assoc] using hb
    rcases hblank with rfl | rfl | rfl | rfl <;> revert h <;> unfold IsOfItem <;> decide
  · rintro rfl
    revert h
    unfold IsOfItem
    decide

/-- An integer starts with a digit or a sign. -/
theorem isSignedInt_head {w : String} (h : isSignedInt w = true) :
    ∃ y v, w.toList = y :: v ∧ IsOfItem y := by
  unfold isSignedInt at h
  cases hw : w.toList with
  | nil =>
    rw [hw] at h
    cases h
  | cons y v =>
    refine ⟨y, v, rfl, ?_⟩
    by_cases hy : isSign y = true
    · exact .inr (.inl hy)
    · rw [hw, dropSign, if_neg hy] at h
      exact .inl ((Scan.isIntLit_digit h).2 y rfl)

theorem isSignedInt_ne_nil {w : String} (h : isSignedInt w = true) : w ≠ "" := by
  rintro rfl
  cases h

/-- An integer that is read behind another token. -/
theorem next_int {mode : Mode} (h : r.After x s) (hx : IsBefore x)
    (hk : (r.next mode).token.kind = .intLit) :
    isSignedInt (r.next mode).token.text = true ∧
      Skips s ((r.next mode).token.text.toList ++ (r.next mode).edge.rest) ∧
      ∃ y, IsOfItem y ∧ (r.next mode).After y (r.next mode).edge.rest := by
  have hspelled := r.spelled_next mode
  rw [Token.Spelled, hk] at hspelled
  obtain ⟨y, v, htext, hy⟩ := isSignedInt_head hspelled
  obtain ⟨hskips, hafter⟩ := h.next hx.isSolid (by simp [hk]) (by simp [hk])
    (by simp [hk]) htext fun hyx => hx.not_isOfItem (hyx ▸ hy)
  exact ⟨hspelled, by rwa [htext], y, hy, hafter⟩

/-- A keyword that is read behind another token. -/
theorem next_keyword {mode : Mode} {k : Keyword} {y : Char} {w : List Char} (h : r.After x s)
    (hx : IsSolid x) (hk : (r.next mode).token.kind = .keyword k) (hw : k.word.toList = y :: w)
    (hne : y ≠ x) : (r.next mode).token.text = k.word ∧
      Skips s (k.word.toList ++ (r.next mode).edge.rest) ∧
      (r.next mode).After y (r.next mode).edge.rest := by
  have hspelled := r.spelled_next mode
  rw [Token.Spelled, hk] at hspelled
  have htext : (r.next mode).token.text.toList = k.word.toList := hspelled
  refine ⟨String.toList_injective htext, ?_⟩
  rw [hw]
  exact h.next hx (by simp [hk]) (by simp [hk]) (by simp [hk])
    (htext.trans hw) hne

/-- Behind the first number of a range. -/
theorem rangeEnd_written {first : String} {t : List Char} {y : Char} (hfirst : isSignedInt first = true)
    (hy : IsOfItem y) (h : r.After y t) (hs : Skips s (first.toList ++ t)) :
    Sat (do
      if (← nextKeyword) = .keyword .kwTo then
        match ← next (.union .keyword .number) with
        | .intLit | .keyword .kwMax => return { first, last := ← text }
        | _ => reject "intLit or max"
      else
        putBack
        return { first }) r
      (fun (a : NumberRange) r' => a.Spelled ∧ ∃ y t, IsOfItem y ∧ r'.After y t ∧ a.Written s t)
      fun _ => True := by
  refine (next_sat .keyword).bind ?_
  rintro k _ ⟨rfl, rfl⟩
  split
  · next hk =>
    have hbefore : IsBefore 't' := by simp [IsBefore]
    have hword : Keyword.kwTo.word.toList = ['t', 'o'] := by decide
    obtain ⟨-, hto, hafter⟩ := next_keyword h hy.isSolid hk hword
      fun hty => hbefore.not_isOfItem (hty ▸ hy)
    generalize r.next .keyword = r at hto hafter ⊢
    refine (next_sat _).bind ?_
    rintro k _ ⟨rfl, rfl⟩
    split
    · next hk =>
      obtain ⟨hint, hlast, hend⟩ := next_int hafter hbefore hk
      obtain ⟨z, hz, hend⟩ := hend
      refine sat_text_bind (sat_pure ⟨⟨hfirst, .inr (.inr hint)⟩, z, _, hz, hend, ?_⟩)
      exact .pair (isSignedInt_ne_nil hint) hs hto hlast
    · next hk =>
      have hword : Keyword.kwMax.word.toList = ['m', 'a', 'x'] := by decide
      have hne : Keyword.kwMax.word ≠ "" := by decide
      obtain ⟨hmax, hlast, hend⟩ := next_keyword hafter hbefore.isSolid hk hword (by decide)
      rw [← hmax] at hlast
      refine sat_text_bind (sat_pure ⟨⟨hfirst, .inr (.inl hmax)⟩, 'm', _, .inr (.inr (.inl rfl)),
        hend, ?_⟩)
      exact .pair (hmax ▸ hne) hs hto hlast
    · exact reject_sat trivial
  · refine (putBack_sat .keyword).bind fun _ r' ⟨hback, _⟩ => ?_
    exact sat_pure ⟨⟨hfirst, .inl rfl⟩, y, t, hy, h.putBack hback, .single rfl hs⟩

theorem range_written (h : r.After x s) (hx : IsBefore x) :
    Sat range r (fun a r' => a.Spelled ∧ ∃ y t, IsOfItem y ∧ r'.After y t ∧ a.Written s t)
      fun _ => True := by
  have hfirst : Sat (expect .number .intLit "intLit") r (fun w r' => isSignedInt w = true ∧
      ∃ y t, IsOfItem y ∧ r'.After y t ∧ Skips s (w.toList ++ t)) fun _ => True := by
    refine (next_sat .number).bind ?_
    rintro k _ ⟨rfl, rfl⟩
    split
    · next hk =>
      obtain ⟨hint, hskips, y, hy, hafter⟩ := next_int h hx hk
      exact sat_text ⟨hint, y, _, hy, hafter, hskips⟩
    · exact reject_sat trivial
  exact hfirst.bind fun first r ⟨hint, y, t, hy, hafter, hskips⟩ =>
    rangeEnd_written hint hy hafter hskips

/-! ## Lists -/

/-- An item behind a comma goes behind the others. -/
theorem comma_after {y : Char} {t : List Char} (hy : IsOfItem y) (h : r.After y t) :
    Sat (accept .comma) r (fun b r' => match b with
      | true => Skips t (',' :: r'.edge.rest) ∧ r'.After ',' r'.edge.rest
      | false => r'.After y t) fun _ => True := by
  have hcomma : IsBefore ',' := by simp [IsBefore]
  have hne : ',' ≠ y := fun h => hcomma.not_isOfItem (by rwa [h])
  exact (accept_after (d := .comma) (by simp) h hy.isSolid hne).mono fun b _ hb => by
    cases b <;> exact hb

theorem ranges_written (h : r.After x s) (hx : IsBefore x) :
    Sat ranges r (fun l r' => (∀ a ∈ l, a.Spelled) ∧ ∃ y t, IsOfItem y ∧ r'.After y t ∧
      Series NumberRange.Written l s t) fun _ => True := by
  refine (range_written h hx).bind fun first r ⟨hspelled, y, t, hy, hafter, hfirst⟩ => ?_
  refine sat_repeatFrom (I := fun l r' => (∀ a ∈ l, a.Spelled) ∧ ∃ y t, IsOfItem y ∧ r'.After y t ∧
    Series NumberRange.Written l s t)
    ⟨by simpa using hspelled, y, t, hy, hafter, .one hfirst⟩ ?_ trivial
  rintro l r ⟨hl, y, t, hy, hafter, hseries⟩
  refine (comma_after hy hafter).bind fun b r hb => ?_
  cases b with
  | false => exact sat_pure ⟨hl, y, t, hy, hb, hseries⟩
  | true =>
    obtain ⟨hcomma, hafter⟩ := hb
    refine (range_written hafter (by simp [IsBefore])).bind fun a r ⟨ha, z, u, hz, hend, hnext⟩ => ?_
    exact sat_pure ⟨List.forall_mem_append.2 ⟨hl, List.forall_mem_singleton.2 ha⟩, z, u, hz, hend,
      .more hseries hcomma hnext⟩

/-- A name that is read behind another token. -/
theorem name_written (h : r.After x s) (hx : IsBefore x) :
    Sat (expect .string .stringLit "fieldName") r (fun w r' => isStrLit w.toList = true ∧
      ∃ y t, IsOfItem y ∧ r'.After y t ∧ NameWritten w s t) fun _ => True := by
  refine (next_sat .string).bind ?_
  rintro k _ ⟨rfl, rfl⟩
  split
  · next hk =>
    have hspelled := r.spelled_next .string
    rw [Token.Spelled, hk] at hspelled
    have hquote : isQuote x = false :=
      Bool.eq_false_iff.2 fun hq => hx.not_isOfItem (.inr (.inr (.inr hq)))
    obtain ⟨ls, q, hq, hls, hskips, htext, hafter⟩ := h.next_string hx.isSolid hk hquote
    exact sat_text ⟨hspelled, q, _, .inr (.inr (.inr hq)), hafter, ls, hls, hskips, htext⟩
  · exact reject_sat trivial

/-- In front of the next name: it is the first one, or a comma stands behind the others. -/
def NamesRead (s : List Char) (l : List String) (r : Reader) : Prop :=
  (∀ w ∈ l, isStrLit w.toList = true) ∧ ∃ x t, IsBefore x ∧ r.After x t ∧
    (l = [] ∧ t = s ∨ ∃ u, Series NameWritten l s u ∧ Skips u (',' :: t))

theorem reservedNames_written (h : r.After x s) (hx : IsBefore x) :
    Sat reservedNames r (fun l r' => (∀ w ∈ l, isStrLit w.toList = true) ∧
      ∃ y t, IsOfItem y ∧ r'.After y t ∧ Series NameWritten l s t) fun _ => True := by
  have hstart : NamesRead s [] r := ⟨List.forall_mem_nil _, x, s, hx, h, .inl ⟨rfl, rfl⟩⟩
  refine sat_repeatFrom (I := NamesRead s) hstart ?_ trivial
  rintro l r ⟨hl, x, t, hx, hafter, hread⟩
  refine (name_written hafter hx).bind fun w r ⟨hw, y, u, hy, hafter, hname⟩ => ?_
  have hnames : ∀ v ∈ l ++ [w], isStrLit v.toList = true :=
    List.forall_mem_append.2 ⟨hl, List.forall_mem_singleton.2 hw⟩
  have hseries : Series NameWritten (l ++ [w]) s u := by
    rcases hread with ⟨rfl, rfl⟩ | ⟨v, hseries, hcomma⟩
    · exact .one hname
    · exact .more hseries hcomma hname
  refine (comma_after hy hafter).bind fun b r hb => ?_
  cases b with
  | false => exact sat_pure ⟨hnames, y, u, hy, hb, hseries⟩
  | true => exact sat_pure ⟨hnames, ',', _, by simp [IsBefore], hb.2, .inr ⟨u, hseries, hb.1⟩⟩

/-! ## The statement -/

/-- The semicolon stands behind the last item. -/
theorem finish_written {y : Char} {t : List Char} (start : Position) (hy : IsOfItem y)
    (h : r.After y t) :
    Sat (finish start) r (fun _ r' => Skips t (';' :: r'.edge.rest)) fun _ => True := by
  have hne : ';' ≠ y := by
    rintro rfl
    revert hy
    unfold IsOfItem
    decide
  exact (expectDelimiter_after (d := .semicolon) ";" (by simp) h hy.isSolid hne).bind fun _ _ h =>
    sat_position_bind (sat_pure h)

/-- The keyword at the beginning. -/
theorem keyword_text : Sat (expectKeyword .kwReserved) r (fun _ r' => ∃ s,
    Skips r.edge.rest ("reserved".toList ++ s) ∧ r'.After 'r' s) fun _ => True := by
  refine Sat.bind (P := fun _ r' => ∃ s, Skips r.edge.rest ("reserved".toList ++ s) ∧
    r'.After 'r' s) ?_ fun _ _ h => sat_position_bind (f := pure) (sat_pure h)
  refine (next_sat .keyword).bind ?_
  rintro k _ ⟨rfl, rfl⟩
  split
  · next hk =>
    have hspelled := r.spelled_next .keyword
    rw [Token.Spelled, hk] at hspelled
    have hword : (r.next .keyword).token.text.toList = "reserved".toList :=
      hspelled.trans (by decide)
    have hgap := Reader.next_skips (r := r) (m := .keyword) (by simp [hk]) (by simp [hk])
    have hmark := Reader.next_covers (r := r) (m := .keyword) (by simp [hk])
      (by simp [hk]) (by simp [hk])
    rw [hword] at hmark
    refine sat_text ⟨_, hmark ▸ hgap, "eserved".toList ++ (r.next .keyword).edge.rest, ?_⟩
    have hself := (r.next .keyword).around_self
    rw [hmark] at hself
    exact hself
  · exact reject_sat trivial

/-- A reserved statement that is read, and the text that it is read from. -/
theorem reserved_text : Sat reserved r (fun n r' => (∀ a ∈ n.item.ranges, a.Spelled) ∧
    (∀ w ∈ n.item.names, isStrLit w.toList = true) ∧ ReservedText n.item r.edge.rest r'.edge.rest)
    fun _ => True := by
  have hbefore : IsBefore 'r' := by simp [IsBefore]
  refine keyword_text.bind fun start r₁ ⟨s, hkeyword, hafter⟩ => ?_
  refine (peek_after .string hafter).bind fun kind r₂ hafter => ?_
  split
  · refine (reservedNames_written hafter hbefore).bind fun names r₃ hnames => ?_
    obtain ⟨hlits, y, t, hy, hafter, hseries⟩ := hnames
    refine sat_pure_bind ((finish_written start hy hafter).bind fun _ r' hend => sat_pure ?_)
    exact ⟨List.forall_mem_nil _, hlits, s, t, hkeyword, .inr ⟨rfl, hseries⟩, hend⟩
  · refine (ranges_written hafter hbefore).bind fun ranges r₃ hranges => ?_
    obtain ⟨hspelled, y, t, hy, hafter, hseries⟩ := hranges
    refine sat_pure_bind ((finish_written start hy hafter).bind fun _ r' hend => sat_pure ?_)
    exact ⟨hspelled, List.forall_mem_nil _, s, t, hkeyword, .inl ⟨rfl, hseries⟩, hend⟩

end Grammar

/-! ## What is reserved -/

/-- A reserved statement that is read has numbers or names, and only one of them; each number is an
integer with at most one sign, each name a literal, and the text is that of the node. -/
theorem reserved_written {r r' : Reader} {n : Noted Reserved} (h : Grammar.reserved r = .ok n r') :
    (n.item.ranges ≠ [] ∧ n.item.names = [] ∨ n.item.ranges = [] ∧ n.item.names ≠ []) ∧
      (∀ a ∈ n.item.ranges, a.Spelled) ∧ (∀ w ∈ n.item.names, isStrLit w.toList = true) ∧
      ReservedText n.item r.edge.rest r'.edge.rest :=
  ⟨Grammar.reserved_proper.ok h, Grammar.reserved_text.ok h⟩

/-- The reserved statement at the start of a text, and what stands behind it. -/
def reservedOf (text : String) : Option (Reserved × List Char) :=
  match Grammar.reserved (Reader.ofBytes (Utf8.encode text.toList) "") with
  | .ok n r => some (n.item, r.edge.rest)
  | .error _ _ => none

theorem exists_reserved {text : String} {x : Reserved} {t : List Char}
    (h : reservedOf text = some (x, t)) : ∃ n r',
      Grammar.reserved (Reader.ofBytes (Utf8.encode text.toList) "") = .ok n r' ∧ n.item = x ∧
        r'.edge.rest = t := by
  unfold reservedOf at h
  split at h
  · next n r' hrun =>
    cases h
    exact ⟨n, r', hrun, rfl, rfl⟩
  · cases h

/-- A name that is written as two literals, with a comment behind the comma. -/
theorem reserved_written_sample : ∃ n r',
    Grammar.reserved
        (Reader.ofBytes (Utf8.encode "reserved \"a\", /* b */ 'c' \"d\";".toList) "") = .ok n r' ∧
      n.item = { names := ["\"a\"", "'cd'"] } ∧
      ReservedText n.item "reserved \"a\", /* b */ 'c' \"d\";".toList [] := by
  have hrun : reservedOf "reserved \"a\", /* b */ 'c' \"d\";" =
      some ({ names := ["\"a\"", "'cd'"] }, []) := by decide +kernel
  have hrest : (Reader.ofBytes (Utf8.encode "reserved \"a\", /* b */ 'c' \"d\";".toList) "").edge.rest =
      "reserved \"a\", /* b */ 'c' \"d\";".toList := by decide +kernel
  obtain ⟨n, r', h, hitem, hend⟩ := exists_reserved hrun
  exact ⟨n, r', h, hitem, hrest ▸ hend ▸ (reserved_written h).2.2.2⟩

/-- A number with a sign, which a field could not have. -/
theorem reserved_signed : ∃ n r',
    Grammar.reserved (Reader.ofBytes (Utf8.encode "reserved -1;".toList) "") = .ok n r' ∧
      n.item = { ranges := [{ first := "-1" }] } ∧ isIntLit "-1".toList = false := by
  have hrun : reservedOf "reserved -1;" = some ({ ranges := [{ first := "-1" }] }, []) := by
    decide +kernel
  obtain ⟨n, r', h, hitem, -⟩ := exists_reserved hrun
  exact ⟨n, r', h, hitem, by decide⟩

end ProtoIdl
