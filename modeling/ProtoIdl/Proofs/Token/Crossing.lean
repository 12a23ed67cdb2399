import ProtoIdl.Proofs.Token.Stop
/-!
# Finding tokens on both sides of a seam

What is found on the left and leaves the tail unread is found on the right (`Cursor.Finds.right`). A
token that does not leave it is the stop that the tail starts with, or it reaches over the stop: then
it is a string, or a comment that is not closed (`Cursor.Finds.crosses`).
-/
namespace ProtoIdl

/-- What stands in front of a token, at another place. -/
def Source.Lead.move (f : Position → Position) : Source.Lead → Source.Lead
  | .clear => .clear
  | .token t => .token (t.move f)

/-- A mode that wants neither strings nor numbers, nor comments. What is no token under it is a comment
that is not closed, or starts as a number. -/
def Mode.isQuiet (m : Mode) : Bool := !m.strings && !m.numbers && !m.comments

/-- Part of the tail has been read. -/
def Seam.Gone (s : Seam) (c : Cursor) : Prop := c.rest.length < s.tail.length

namespace Cursor

variable {s : Seam} {c d e : Cursor} {l : Source.Lead} {m : Mode} {t : Token} {ts : List Token}

/-- What is read is read from the front of the text. -/
theorem Reaches.gone_or_leaves (h : c.Reaches d) (hc : s.Leaves c) : s.Gone d ∨ s.Leaves d := by
  rcases Nat.lt_or_ge d.rest.length s.tail.length with hlt | hle
  · exact .inl hlt
  · exact .inr (List.suffix_of_suffix_length_le hc h.suffix hle)

theorem Reaches.gone (h : c.Reaches d) (hc : s.Gone c) : s.Gone d :=
  Nat.lt_of_le_of_lt h.length_le hc

theorem Leads.reaches (h : c.Leads l ts d e) : d.Reaches e := by
  induction h with
  | @clear c d hg => exact .refl d
  | @unclosed c d e t hg ht hk =>
    obtain ⟨-, -, rfl⟩ := (Leads.unclosed hg ht hk).unclosed_eq
    exact d.reaches_atEnd
  | comment hg ht hk _ ih => exact ih

theorem Leads.right (h : c.Leads l ts d e) (he : c.ending = none) (hs : s.Leaves e) :
    (s.right c).Leads (l.move s.move) (ts.map (Token.move s.move)) (s.right d) (s.right e) := by
  induction h with
  | clear hg => exact .clear ((Scan.tracks_gap he _ _ hg).2 hs)
  | @unclosed c d e t hg ht hk =>
    obtain ⟨hcd, hgap⟩ := Scan.tracks_gap he _ _ hg
    have hopen := ((Scan.gap_ends c).ok hg).2.1 rfl
    obtain ⟨hde, hcomment⟩ := Scan.tracks_comment hopen (hcd.ending_eq.trans he) _ _ ht
    exact .unclosed (hgap (hs.of_reaches hde)) (hcomment hs) hk
  | @comment a b c d e t l ts hg ht hk hl ih =>
    obtain ⟨hab, hgap⟩ := Scan.tracks_gap he _ _ hg
    have hopen := ((Scan.gap_ends a).ok hg).2.1 rfl
    obtain ⟨hbc, hcomment⟩ := Scan.tracks_comment hopen (hab.ending_eq.trans he) _ _ ht
    have hc : s.Leaves c := hs.of_reaches (hl.passes.reaches.trans hl.reaches)
    exact .comment (hgap (hc.of_reaches hbc)) (hcomment hc) hk
      (ih ((hab.trans hbc).ending_eq.trans he) hs)

theorem Finds.right (h : c.Finds m t ts d e) (he : c.ending = none) (hs : s.Leaves e) :
    (s.right c).Finds m (t.move s.move) (ts.map (Token.move s.move)) (s.right d) (s.right e) := by
  cases h with
  | token hl ht =>
    obtain ⟨hde, htoken⟩ := Scan.tracks_token m (hl.passes.reaches.ending_eq.trans he) _ _ ht
    exact .token (hl.right he (hs.of_reaches hde)) (htoken hs)
  | unclosed hl => exact .unclosed (hl.right he hs)

/-- The stop that the tail starts with is the same token on the right, whatever follows it there. -/
theorem Finds.right_of_tail (hl : c.Leads .clear ts d d) (ht : Scan.token m d = .ok (t, e))
    (he : c.ending = none) (hne : s.tail ≠ []) (hd : d.rest = s.tail) :
    e = d.advance 1 ∧ (∃ x, t = Scan.single x d.position) ∧
      (s.right c).Finds m (t.move s.move) (ts.map (Token.move s.move)) (s.right d) (s.right e) := by
  obtain ⟨x, rest, htail⟩ := List.exists_cons_of_ne_nil hne
  have hstop := s.stop x rest htail
  have hr := hd.trans htail
  have hleaves : s.Leaves d := ⟨[], hd.symm⟩
  rw [Scan.token_stop m hr hstop] at ht
  obtain ⟨rfl, rfl⟩ := Prod.mk.inj (Except.ok.inj ht)
  refine ⟨rfl, ⟨x, rfl⟩, .token (hl.right he hleaves) ?_⟩
  have hright : (s.right d).rest = x :: (rest ++ s.more) := by
    rw [Seam.right, hr, List.cons_append]
  rw [Scan.token_stop m hright hstop, Scan.move_single _ s.move, Seam.right_advance (.inl (by simp [hr]))]
  rfl

/-- A token begins in front of the tail. Either it is a comment that is not closed; or it is found on
the right, and it leaves the tail or is the stop that the tail starts with; or the tail is partly
read, and it starts with a quote where strings are wanted. -/
theorem Finds.crosses (h : c.Finds m t ts d e) (he : c.ending = none) (hd : s.Leaves d) :
    c.Leads (.token t) ts d e ∨
      (s.right c).Finds m (t.move s.move) (ts.map (Token.move s.move)) (s.right d) (s.right e) ∧
        (s.Leaves e ∨ s.tail ≠ [] ∧ d.rest = s.tail ∧ e = d.advance 1) ∨
      s.Gone e ∧ d.rest ≠ s.tail ∧ (∃ x more, d.rest = x :: more ∧ Scan.isQuote x = true) ∧
        m.strings = true ∧ (t.kind = .stringLit ∨ t.kind = .illegal) := by
  have hfinds := h
  cases h with
  | unclosed hl => exact .inl hl
  | token hl ht =>
    rcases hfinds.found.reaches.gone_or_leaves hd with hgone | hs
    · have hne : s.tail ≠ [] := by
        intro hnil
        rw [Seam.Gone, hnil] at hgone
        exact absurd hgone (Nat.not_lt_zero _)
      by_cases htail : d.rest = s.tail
      · obtain ⟨hadvance, -, hright⟩ := Finds.right_of_tail hl ht he hne htail
        exact .inr (.inl ⟨hright, .inr ⟨hne, htail, hadvance⟩⟩)
      · refine .inr (.inr ⟨hgone, htail, ?_⟩)
        obtain ⟨before, hbefore⟩ := hd
        obtain ⟨x, rest, hx⟩ := List.exists_cons_of_ne_nil hne
        have hstop := s.stop x rest hx
        rcases before with _ | ⟨y, before⟩
        · exact absurd hbefore.symm htail
        rcases (Scan.token_over m hbefore.symm).ok ht with ⟨cs, -, hpre, rfl, hcs⟩ | ⟨-, -, rfl⟩ | h
        · -- the first stop of the tail would be among the characters read
          have hlen : (y :: before ++ [x]).length ≤ cs.length := by
            rw [Seam.Gone, Cursor.rest_advance, List.length_drop, ← hbefore, List.length_append,
              hx] at hgone
            simp only [List.length_append, List.length_cons, List.length_nil] at hgone ⊢
            omega
          have hfront : y :: before ++ [x] <+: d.rest :=
            ⟨rest, by rw [List.append_assoc, List.singleton_append, ← hx, hbefore]⟩
          have hmem : x ∈ cs :=
            (List.prefix_of_prefix_length_le hfront hpre hlen).subset (by simp)
          exact absurd (hcs x hmem) (by rw [hstop]; nofun)
        · rw [Seam.Gone, Cursor.rest_advance, ← hbefore, List.cons_append, List.drop_one,
            List.tail_cons, List.length_append] at hgone
          omega
        · exact ⟨⟨y, _, hbefore.symm, h.1⟩, h.2⟩
    · exact .inr (.inl ⟨hfinds.right he hs, .inl hs⟩)

/-- A comment that is not closed starts here. -/
def Unclosed (c : Cursor) : Prop := ∃ t e, c.Leads (.token t) [] c e

theorem Leads.unclosed_mark (h : c.Leads (.token t) ts d e) (he : c.ending = none) :
    d.Unclosed ∧ e.rest = [] := by
  obtain ⟨-, -, rfl⟩ := h.unclosed_eq
  exact ⟨⟨t, d.atEnd, h.again he⟩, rest_atEnd d⟩

/-- No stop and no quote opens a comment. -/
theorem Unclosed.head_eq {x : Char} {more : List Char} (h : c.Unclosed) (hc : c.rest = x :: more) :
    x = '/' := by
  obtain ⟨t, e, hl⟩ := h
  obtain ⟨⟨y, rest, hrest, -⟩, -⟩ := hl.unclosed_eq
  rw [hc] at hrest
  exact (List.cons.inj hrest).1

/-- A quote that a string was found at is a token by itself where no strings are wanted. -/
theorem Finds.quote {m' : Mode} {x : Char} {more : List Char} (h : c.Finds m t ts d e)
    (he : c.ending = none) (hd : d.rest = x :: more) (hx : Scan.isQuote x = true)
    (hm : m'.strings = false) :
    d.Finds m' (.make (.delimiter .quote) [x] d.position) [] d (d.advance 1) := by
  cases h with
  | token hl ht => exact .token (hl.again he) (Scan.token_quote hm hd hx)
  | unclosed hl =>
    obtain rfl := (hl.unclosed_mark he).1.head_eq hd
    exact absurd hx (by decide)

end Cursor

end ProtoIdl
