import ProtoIdl.Proofs.Token.Literals
import ProtoIdl.Proofs.Token.Verbatim
/-!
# What is skipped between two tokens

`Skips s t` says of a text `s` that nothing but white space and comments stands in front of `t`, which
is the rest of it. What stands behind a gap of that kind is the same whichever way the gap is divided
(`Skips.unique`). A token that is handed out stands behind such a gap, and its characters with it: they
are its text, or literals that join to it. Main statements: `TokenStream.scan_skips` and
`TokenStream.scan_joined`.
-/
namespace ProtoIdl

open Spelling
open Scan (isBlank isQuote untilClosed)

/-- In front of the second text, which is the rest of the first, there are white space and comments
only: a line comment up to the end of its line, a block comment up to the first `*/`. -/
inductive Skips : List Char → List Char → Prop
  | refl (s : List Char) : Skips s s
  | blank {x : Char} {s t : List Char} (hx : isBlank x = true) (h : Skips s t) : Skips (x :: s) t
  | line {s t : List Char} (h : Skips (s.dropWhile (· != '\n')) t) : Skips ('/' :: '/' :: s) t
  | block {n : Nat} {s t : List Char} (hn : untilClosed s = some n) (h : Skips (s.drop n) t) :
    Skips ('/' :: '*' :: s) t

/-- A character that stands in no gap but in a comment. -/
def IsSolid (x : Char) : Prop := isBlank x = false ∧ x ≠ '/'

namespace Skips

variable {s t u : List Char} {x y : Char}

theorem trans (h : Skips s t) (h' : Skips t u) : Skips s u := by
  induction h with
  | refl s => exact h'
  | blank hx _ ih => exact .blank hx (ih h')
  | line _ ih => exact .line (ih h')
  | block hn _ ih => exact .block hn (ih h')

/-- White space at the beginning is skipped. -/
theorem blanks (s : List Char) : Skips s (s.dropWhile isBlank) := by
  induction s with
  | nil => exact .refl []
  | cons x s ih =>
    by_cases hx : isBlank x = true
    · rw [List.dropWhile_cons_of_pos hx]
      exact .blank hx ih
    · rw [List.dropWhile_cons_of_neg hx]
      exact .refl _

/-- In front of a solid character nothing is skipped. -/
theorem eq_of_solid (h : Skips (x :: s) t) (hx : IsSolid x) : t = x :: s := by
  cases h with
  | refl => rfl
  | blank hb => exact absurd hb (by simp [hx.1])
  | line => exact absurd rfl hx.2
  | block => exact absurd rfl hx.2

/-- Of two gaps that begin at one place, one is the beginning of the other. -/
theorem total (h : Skips s t) (h' : Skips s u) : Skips t u ∨ Skips u t := by
  induction h with
  | refl s => exact .inl h'
  | blank hx h ih =>
    cases h' with
    | refl => exact .inr (.blank hx h)
    | blank _ h' => exact ih h'
    | line => exact absurd hx (by decide)
    | block => exact absurd hx (by decide)
  | line h ih =>
    cases h' with
    | refl => exact .inr (.line h)
    | blank hx => exact absurd hx (by decide)
    | line h' => exact ih h'
  | block hn h ih =>
    cases h' with
    | refl => exact .inr (.block hn h)
    | blank hx => exact absurd hx (by decide)
    | block hn' h' =>
      cases hn.symm.trans hn'
      exact ih h'

/-- Behind a gap only one thing stands. -/
theorem unique (h : Skips s (x :: t)) (h' : Skips s (y :: u)) (hx : IsSolid x) (hy : IsSolid y) :
    x :: t = y :: u := by
  rcases h.total h' with h | h
  · exact (h.eq_of_solid hx).symm
  · exact h.eq_of_solid hy

/-- What stands behind a gap stands behind any gap that begins there and is no longer. -/
theorem behind (h : Skips s u) (h' : Skips s (x :: t)) (hx : IsSolid x) : Skips u (x :: t) := by
  rcases h.total h' with h | h
  · exact h
  · exact h.eq_of_solid hx ▸ .refl _

end Skips

theorem isSolid_of_isQuote {x : Char} (h : isQuote x = true) : IsSolid x := by
  refine ⟨Quoted.isBlank_of_isQuote h, ?_⟩
  rintro rfl
  cases h

namespace Quoted

/-- The string that literals are joined to: what stands between their quotes, between the quotes of the
first one. Quotes of that kind in the others are escaped. -/
def join : List Quoted → List Char
  | [] => []
  | l :: ls =>
    let quote := l.literal.headD '"'
    quote :: (l :: ls).flatMap (fun l => requote quote l.inner) ++ [quote]

theorem headD_literal (l : Quoted) : ∃ q, isQuote q = true ∧ l.literal.head? = some q ∧
    l.literal.headD '"' = q := by
  obtain ⟨q, hq, hl, -⟩ := isStrLit_cases l.isStrLit
  refine ⟨q, hq, ?_, ?_⟩ <;> rw [hl] <;> rfl

end Quoted

/-! ## Comments and white space -/

namespace Scan

variable {c d : Cursor}

theorem blanks_skips (c : Cursor) :
    Skips c.rest (c.advance (c.rest.takeWhile isBlank).length).rest := by
  rw [Cursor.rest_advance, drop_takeWhile]
  exact Skips.blanks c.rest

/-- A comment that is read is skipped. -/
theorem comment_skips {t : Token} (hc : OpensComment c.rest) (ht : comment c = .ok (t, d))
    (hk : t.kind ≠ .illegal) : Skips c.rest d.rest := by
  have hof (n : Nat) (trim : List Char → List Char) : Ends (commentOf n trim) c
      (fun _ d => d = c.advance n) fun _ => True := by
    refine Ends.bind (P := fun a d => a = c ∧ d = c) ⟨rfl, rfl⟩ ?_
    rintro _ c ⟨rfl, rfl⟩
    exact (skip_ends n).bind fun _ _ h => ends_pure h
  have hread : Ends comment c (fun t d => t.kind ≠ .illegal → Skips c.rest d.rest)
      fun _ => True := by
    refine comment_cases hc (fun _ => trivial) ?line ?block fun h => absurd rfl h
    case line =>
      intro more hr
      refine (hof _ _).mono ?_
      rintro t _ rfl -
      rw [Cursor.rest_advance, drop_takeWhile, hr]
      exact .line (.refl _)
    case block =>
      intro more n hr hn _
      refine (hof _ _).mono ?_
      rintro t _ rfl -
      rw [Cursor.rest_advance, hr]
      exact .block hn (.refl _)
  exact hread.ok ht hk

end Scan

/-! ## Tokens -/

namespace Source

/-- What is passed over in front of a token is a gap; the mark stays where it is, or it stands behind
a gap as well. -/
theorem lead_skips (mode : Mode) (rounds : Nat) (passed : List Token) (s : Source) :
    ((s.lead mode rounds passed).1 = .clear →
      Skips s.current.rest (s.lead mode rounds passed).2.2.current.rest) ∧
    ((s.lead mode rounds passed).2.2.marked = s.marked ∨
      Skips s.current.rest (s.lead mode rounds passed).2.2.marked.rest) := by
  refine lead_rule
    (I := fun _ s' => Skips s.current.rest s'.current.rest ∧
      (s'.marked = s.marked ∨ Skips s.current.rest s'.marked.rest))
    (Q := fun r => (r.1 = .clear → Skips s.current.rest r.2.2.current.rest) ∧
      (r.2.2.marked = s.marked ∨ Skips s.current.rest r.2.2.marked.rest))
    ?gap ?round ?clear ?comment ?error rounds ⟨.refl _, .inl rfl⟩
  case gap =>
    intro _ s' hs
    exact ⟨hs.1.trans (Scan.blanks_skips s'.current), hs.2⟩
  case round =>
    intro _ s' t d hs hopen ht hread
    have hk : t.kind ≠ .illegal := by rw [hread.kind_eq]; simp
    exact ⟨hs.1.trans (Scan.comment_skips hopen ht hk), .inr hs.1⟩
  case clear =>
    intro _ s' hs
    exact ⟨fun _ => hs.1, hs.2⟩
  case comment =>
    intro _ s' t d hs _ _
    exact ⟨by simp, .inr hs.1⟩
  case error =>
    rintro _ s' _ e hs (rfl | rfl) _
    · exact ⟨by simp, hs.2⟩
    · exact ⟨by simp, .inr hs.1⟩

end Source

namespace TokenStream

variable {mode : Mode} {s : TokenStream}

/-- A scan leaves the mark where it is, or behind a gap. -/
theorem scan_mark (mode : Mode) (s : TokenStream) :
    (s.scan mode).2.source.marked = s.source.marked ∨
      Skips s.source.current.rest (s.scan mode).2.source.marked.rest := by
  obtain ⟨hclear, hmark⟩ := Source.lead_skips mode s.rounds [] s.source
  unfold TokenStream.scan
  generalize s.source.lead mode s.rounds [] = r at hclear hmark ⊢
  obtain ⟨lead, passed, source⟩ := r
  cases lead with
  | token t => exact hmark
  | clear =>
    dsimp only
    rw [Source.take, Source.current_mark]
    rcases Scan.token mode source.current with e | ⟨t, e⟩ <;> exact .inr (hclear rfl)

/-- A token of the grammar stands behind a gap. -/
theorem scan_skips (hc : (s.scan mode).1.kind ≠ .comment) (hi : (s.scan mode).1.kind ≠ .illegal) :
    Skips s.source.current.rest (s.scan mode).2.source.marked.rest := by
  have hcomment : Scan.Spells (fun t => t.kind = .comment ∨ t.kind = .illegal) Scan.comment :=
    Scan.comment_kind
  have hlead := Source.lead_spells hcomment (fun _ => .inr rfl) mode s.rounds [] s.source
  obtain ⟨hclear, -⟩ := Source.lead_skips mode s.rounds [] s.source
  unfold TokenStream.scan at hc hi ⊢
  generalize s.source.lead mode s.rounds [] = r at hlead hclear hc hi ⊢
  obtain ⟨lead, passed, source⟩ := r
  cases lead with
  | token t => exact absurd (hlead t rfl) (not_or.2 ⟨hc, hi⟩)
  | clear =>
    dsimp only
    rw [Source.take, Source.current_mark]
    rcases Scan.token mode source.current with e | ⟨t, e⟩ <;> exact hclear rfl

/-- Its characters are those between the mark and what is left, unless it is a string. -/
theorem scan_covers (hc : (s.scan mode).1.kind ≠ .comment) (hi : (s.scan mode).1.kind ≠ .illegal)
    (hs : (s.scan mode).1.kind ≠ .stringLit) : (s.scan mode).2.source.marked.rest =
      (s.scan mode).1.text.toList ++ (s.scan mode).2.source.current.rest := by
  have ht : Scan.token mode (s.scan mode).2.source.marked =
      .ok ((s.scan mode).1, (s.scan mode).2.source.current) := token_of_kind rfl hc hi
  have he := ((Scan.token_found mode _).ok ht).error_eq hi
  obtain ⟨w, htext, hw⟩ := (Scan.token_verbatim mode _).ok ht hs he
  rw [htext]
  exact hw.2

/-- Of a string they are literals that it is joined from. -/
theorem scan_joined (hk : (s.scan mode).1.kind = .stringLit) : ∃ ls : List Quoted, ls ≠ [] ∧
    (s.scan mode).2.source.marked.rest =
      ls.flatMap Quoted.chars ++ (s.scan mode).2.source.current.rest ∧
    (s.scan mode).1.text.toList = Quoted.join ls := by
  have ht := token_of_kind hk (by simp) (by simp)
  rcases (Scan.token_unquoted mode _).ok ht with h | ⟨q, hhead, hq, hstring⟩
  · exact absurd hk h.ne_stringLit
  have hjoins := (Scan.literals_ends hq _ _ [] _ (by simp [hhead, hq])).ok hstring
  obtain ⟨ls, hls, htext⟩ := hjoins hk
  cases ls with
  | nil =>
    -- reading a string goes forward
    cases (Scan.token_found mode _).ok ht with
    | lexed hne hd hl =>
      have hle := hd.length_le
      have hlen : 0 < (s.scan mode).2.source.marked.rest.length := List.length_pos_iff.2 hne
      rw [Cursor.rest_advance, List.length_drop] at hle
      rw [List.flatMap_nil, List.nil_append] at hls
      rw [hls] at hle hlen
      omega
    | eof hc hd hl =>
      rw [hl] at hk
      cases hk
  | cons l ls =>
    obtain ⟨p, -, hp, hquote⟩ := l.headD_literal
    have hpq : q = p := by
      rw [hls, List.flatMap_cons, Quoted.chars, List.append_assoc, List.append_assoc,
        List.head?_append, hp] at hhead
      exact (Option.some.inj hhead).symm
    refine ⟨l :: ls, List.cons_ne_nil l ls, hls, ?_⟩
    rw [htext, Quoted.join, hquote, hpq]
    rfl

end TokenStream

end ProtoIdl
