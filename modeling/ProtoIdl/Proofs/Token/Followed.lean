import ProtoIdl.Proofs.Token.Faulted
/-!
# Scanning on into another text

Where only white space and comments are left of a text that ends with a newline, scanning goes on into
a text behind it: the comments left are passed over, and then comes what comes first in the other text
(`Cursor.Leads.followed`). The newline matters: a comment up to the end of its line would go on.
-/
namespace ProtoIdl

namespace Cursor

/-- The same text with another one behind it. -/
def followed (more : List Char) (c : Cursor) : Cursor := { c with rest := c.rest ++ more }

/-- What is left ends with a newline, if anything is. -/
def EndsLine (c : Cursor) : Prop := ∀ x, c.rest.getLast? = some x → x = '\n'

variable {more : List Char} {c d : Cursor}

theorem followed_advance {n : Nat} (hn : n ≤ c.rest.length) :
    (c.followed more).advance n = (c.advance n).followed more := by
  simp [followed, advance, List.drop_append_of_le_length hn, List.take_append_of_le_length hn]

theorem EndsLine.suffix (h : c.EndsLine) (hd : d.rest <:+ c.rest) : d.EndsLine := by
  intro x hx
  obtain ⟨before, hbefore⟩ := hd
  refine h x ?_
  rw [← hbefore, List.getLast?_append, hx]
  rfl

theorem EndsLine.newline_mem (h : c.EndsLine) (hc : c.rest ≠ []) : '\n' ∈ c.rest := by
  have hlast := h _ (List.getLast?_eq_some_getLast hc)
  exact hlast ▸ List.getLast_mem hc

end Cursor

namespace Scan

variable {more : List Char} {c d : Cursor} {t : Token}

theorem takeWhile_followed (more : List Char) {p : Char → Bool} {x : Char} (hx : x ∈ c.rest)
    (hp : p x = false) : (c.followed more).rest.takeWhile p = c.rest.takeWhile p := by
  rw [Cursor.followed, List.takeWhile_append, if_neg]
  intro hlen
  have hall : c.rest.takeWhile p = c.rest := (List.takeWhile_prefix p).eq_of_length hlen
  rw [List.takeWhile_eq_self_iff] at hall
  exact absurd (hall x hx) (by rw [hp]; nofun)

/-- White space in front of a comment. -/
theorem gap_followed (hg : gap c = .ok (true, d)) :
    gap (c.followed more) = .ok (true, d.followed more) := by
  obtain ⟨rfl, hopen⟩ := (gap_ends c).ok hg
  obtain ⟨x, rest, hr, hx⟩ := hopen.1 rfl
  have hmem : '/' ∈ c.rest := by
    refine List.mem_of_mem_drop (i := (c.rest.takeWhile isBlank).length) ?_
    rw [← Cursor.rest_advance, hr]
    exact List.mem_cons_self
  have htake := takeWhile_followed more (p := isBlank) hmem (by decide)
  have hadvance : (c.followed more).advance ((c.followed more).rest.takeWhile isBlank).length =
      (c.advance (c.rest.takeWhile isBlank).length).followed more := by
    rw [htake, Cursor.followed_advance (List.takeWhile_prefix isBlank).length_le]
  rw [← hadvance]
  refine gap_of_opens ?_
  rw [hadvance]
  exact ⟨x, rest ++ more, by rw [Cursor.followed, hr]; rfl, hx⟩

/-- White space that goes up to the end goes on in the other text. -/
theorem gap_on (hc : ∀ x ∈ c.rest, isBlank x = true) :
    gap (c.followed more) = gap (c.atEnd.followed more) := by
  have hall : c.rest.takeWhile isBlank = c.rest := List.takeWhile_eq_self_iff.2 hc
  have hend : (c.atEnd.followed more).rest = more := by
    rw [Cursor.followed, Cursor.rest_atEnd, List.nil_append]
  have htake : (c.followed more).rest.takeWhile isBlank = c.rest ++ more.takeWhile isBlank := by
    rw [Cursor.followed, List.takeWhile_append, if_pos (by rw [hall])]
  have hadvance : (c.followed more).advance ((c.followed more).rest.takeWhile isBlank).length =
      (c.atEnd.followed more).advance ((c.atEnd.followed more).rest.takeWhile isBlank).length := by
    rw [htake, hend, List.length_append, Cursor.advance_add, Cursor.followed_advance le_rfl]
    rfl
  rcases hpeek : ((c.atEnd.followed more).advance
    ((c.atEnd.followed more).rest.takeWhile isBlank).length).peek with e | o
  · rw [gap, run_bind_error (run_run_error hpeek), run_bind_error]
    rw [← hadvance] at hpeek
    exact run_run_error hpeek
  · rw [gap, run_bind (run_run hpeek)]
    rw [← hadvance] at hpeek
    rw [run_bind (run_run hpeek), hadvance]

/-- A comment that is closed. -/
theorem comment_followed (hc : OpensComment c.rest) (hn : c.EndsLine) (he : c.ending = none)
    (ht : comment c = .ok (t, d)) (hk : t.kind ≠ .illegal) :
    comment (c.followed more) = .ok (t, d.followed more) := by
  obtain ⟨x, rest, hr, hx⟩ := hc
  have hr' : (c.followed more).rest = '/' :: x :: (rest ++ more) := by rw [Cursor.followed, hr]; rfl
  have hcommentOf {n : Nat} (hn : n ≤ c.rest.length) {trim : List Char → List Char}
      (h : commentOf n trim c = .ok (t, d)) :
      commentOf n trim (c.followed more) = .ok (t, d.followed more) := by
    obtain ⟨rfl, rfl⟩ := Prod.mk.inj (Except.ok.inj h)
    change Except.ok (_, (c.followed more).advance n) = _
    rw [Cursor.followed_advance hn, Cursor.followed_advance (Nat.le_trans (Nat.sub_le n 1) hn),
      Cursor.followed, List.take_append_of_le_length hn]
    rfl
  rw [comment, run_bind (run_peekSecond hr)] at ht
  rw [comment, run_bind (run_peekSecond hr')]
  by_cases hslash : some x = some '/'
  · -- a newline ends the comment, so nothing of the other text is read
    rw [if_pos hslash] at ht ⊢
    have hnewline : '\n' ∈ c.rest := hn.newline_mem (hr ▸ List.cons_ne_nil _ _)
    have htake := takeWhile_followed more (p := (· != '\n')) hnewline (by decide)
    have hle : (c.rest.takeWhile (· != '\n')).length ≤ c.rest.length :=
      (List.takeWhile_prefix _).length_le
    obtain ⟨chars, e, hrun, rfl, -⟩ := (run_ends (· != '\n')).exists_ok fun _ => Cursor.not_faulty he
    rw [lineComment_eq hrun] at ht
    obtain ⟨chars, e, hrun', rfl, -⟩ :=
      (run_ends (c := c.followed more) (· != '\n')).exists_ok fun _ => Cursor.not_faulty he
    rw [lineComment_eq hrun', htake]
    exact hcommentOf hle ht
  · rw [if_neg hslash] at ht ⊢
    cases hclosed : untilClosed (c.rest.drop 2) with
    | some n =>
      have hclosed' : untilClosed ((c.followed more).rest.drop 2) = some n := by
        rw [hr] at hclosed
        rw [hr']
        exact untilClosed_append more hclosed
      have hle : n + 2 ≤ c.rest.length := by
        have := untilClosed_bounds hclosed
        rw [List.length_drop] at this
        rw [hr] at this ⊢
        simp only [List.length_cons] at this ⊢
        omega
      rw [blockComment_eq hclosed] at ht
      rw [blockComment_eq hclosed']
      exact hcommentOf hle ht
    | none => exact absurd (blockComment_illegal he hclosed ht) hk

end Scan

namespace Cursor

variable {c d d' e e' : Cursor} {m : Mode} {t : Token} {ts us : List Token} {l l' : Source.Lead}
  {more : List Char}

/-- Behind white space and comments comes what comes first in the other text. -/
theorem Leads.followed (h : c.Leads l ts d d') (hl : l = .clear) (he : c.ending = none)
    (hn : c.EndsLine) (hd : d.rest = []) (h' : (c.atEnd.followed more).Leads l' us e e') :
    (c.followed more).Leads l' (ts ++ us) e e' := by
  induction h with
  | @clear c d hg =>
    exact h'.of_gap_eq (Scan.gap_on (Scan.blank_of_gap hg hd))
  | unclosed => cases hl
  | @comment a b c d d' t l ts hg ht hk h ih =>
    obtain ⟨hab, hc, -⟩ := Scan.gap_comment hg ht hk
    have hopen := ((Scan.gap_ends a).ok hg).2.1 rfl
    have hb := hab.ending_eq.trans he
    refine .comment (Scan.gap_followed hg)
      (Scan.comment_followed hopen (hn.suffix hab.suffix) hb ht hk) hk (ih hl ?_ ?_ hd ?_)
    · exact hc.reaches.ending_eq.trans hb
    · exact hn.suffix (hab.trans hc.reaches).suffix
    · rwa [hc.reaches.atEnd_eq, hab.atEnd_eq]

theorem Finds.followed (h : c.Leads .clear ts d d) (he : c.ending = none) (hn : c.EndsLine)
    (hd : d.rest = []) (h' : (c.atEnd.followed more).Finds m t us e e') :
    (c.followed more).Finds m t (ts ++ us) e e' := by
  cases h' with
  | token hl ht => exact .token (h.followed rfl he hn hd hl) ht
  | unclosed hl => exact .unclosed (h.followed rfl he hn hd hl)

end Cursor

end ProtoIdl
