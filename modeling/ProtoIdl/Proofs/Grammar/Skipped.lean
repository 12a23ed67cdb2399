import ProtoIdl.Proofs.Grammar.Footing
import ProtoIdl.Proofs.Grammar.Reading
import ProtoIdl.Proofs.Token.Skipped
/-!
# The text behind a token

What a reader reads next stands behind a gap, whatever the text is (`Reader.next_skips`). A token that
is put back is read again behind the same gap, if the text is well formed; where it is not, looking for
a token may put back the one before it too. `Reader.After x s` covers both: the token that was read last
starts with `x`, and `s` is the text behind it. What starts with another character than `x` is not the
token that was read before, so it stands behind `s` (`Reader.After.next`).
-/
namespace ProtoIdl

open Spelling
open Scan (isQuote)

namespace Reader

variable {m : Mode} {r r' : Reader} {a b s : List Char} {x y : Char}

/-- A token of the grammar stands behind a gap. -/
theorem next_skips (hc : (r.next m).token.kind ≠ .comment)
    (hi : (r.next m).token.kind ≠ .illegal) : Skips r.edge.rest (r.next m).mark.rest :=
  TokenStream.scan_skips hc hi

/-- Unless it is a string, its characters are its text. -/
theorem next_covers (hc : (r.next m).token.kind ≠ .comment)
    (hi : (r.next m).token.kind ≠ .illegal) (hs : (r.next m).token.kind ≠ .stringLit) :
    (r.next m).mark.rest = (r.next m).token.text.toList ++ (r.next m).edge.rest :=
  TokenStream.scan_covers hc hi hs

/-- Reading stands behind a token that starts at `a` and ends at `b`, or in front of it again; in
either case there may be a gap. -/
structure Around (a b : List Char) (r : Reader) : Prop where
  edge : Skips b r.edge.rest ∨ Skips a r.edge.rest
  mark : Skips b r.mark.rest ∨ Skips a r.mark.rest

theorem around_self (r : Reader) : r.Around r.mark.rest r.edge.rest := ⟨.inl (.refl _), .inr (.refl _)⟩

/-- Looking at the next token changes nothing. -/
theorem Around.putBack (h : r.Around a b) (hr : (r.next m).putBack = .ok r') : r'.Around a b := by
  obtain ⟨hedge, hmark, -⟩ := putBack_places hr
  have hnext : Skips b (r.next m).mark.rest ∨ Skips a (r.next m).mark.rest := by
    rcases TokenStream.scan_mark m r.stream with hsame | hgap
    · have hsame : (r.next m).mark = r.mark := hsame
      rw [hsame]
      exact h.mark
    · exact h.edge.imp (fun h => h.trans hgap) fun h => h.trans hgap
  exact ⟨by rwa [hedge], by rwa [hmark]⟩

/-- The token that was read last starts with `x`, and `s` is the text behind it. -/
def After (x : Char) (s : List Char) (r : Reader) : Prop := ∃ a, r.Around (x :: a) s

theorem After.putBack (h : r.After x s) (hr : (r.next m).putBack = .ok r') : r'.After x s := by
  obtain ⟨a, h⟩ := h
  exact ⟨a, h.putBack hr⟩

/-- What does not start like the token before stands behind it. -/
theorem After.skips {w : List Char} (h : r.After x s) (hx : IsSolid x)
    (hc : (r.next m).token.kind ≠ .comment) (hi : (r.next m).token.kind ≠ .illegal)
    (hmark : (r.next m).mark.rest = y :: w) (hne : y ≠ x) :
    Skips s (y :: w) ∧ (r.next m).After y (r.next m).edge.rest := by
  obtain ⟨a, h⟩ := h
  have hgap := next_skips hc hi
  rw [hmark] at hgap
  refine ⟨h.edge.elim (fun h => h.trans hgap) fun h => ?_, w, ?_⟩
  · exact absurd (List.cons.inj ((h.trans hgap).eq_of_solid hx)).1 hne
  · rw [← hmark]
    exact (r.next m).around_self

/-- A token with the characters `y :: w` that is read behind another one. -/
theorem After.next {w : List Char} (h : r.After x s) (hx : IsSolid x)
    (hc : (r.next m).token.kind ≠ .comment) (hi : (r.next m).token.kind ≠ .illegal)
    (hs : (r.next m).token.kind ≠ .stringLit)
    (htext : (r.next m).token.text.toList = y :: w) (hne : y ≠ x) :
    Skips s (y :: w ++ (r.next m).edge.rest) ∧
      (r.next m).After y (r.next m).edge.rest :=
  h.skips hx hc hi (by rw [next_covers hc hi hs, htext]; rfl) hne

/-- A string that is read behind another token. -/
theorem After.next_string (h : r.After x s) (hx : IsSolid x)
    (hk : (r.next m).token.kind = .stringLit) (hne : isQuote x = false) :
    ∃ (ls : List Quoted) (q : Char), isQuote q = true ∧ ls ≠ [] ∧
      Skips s (ls.flatMap Quoted.chars ++ (r.next m).edge.rest) ∧
      (r.next m).token.text.toList = Quoted.join ls ∧
      (r.next m).After q (r.next m).edge.rest := by
  obtain ⟨ls, hls, hmark, htext⟩ := TokenStream.scan_joined (s := r.stream) hk
  obtain ⟨l, ls, rfl⟩ := List.exists_cons_of_ne_nil hls
  obtain ⟨q, hq, hhead, -⟩ := l.headD_literal
  obtain ⟨w, hw⟩ := List.head?_eq_some_iff.1 hhead
  have hqx : q ≠ x := by
    rintro rfl
    rw [hq] at hne
    cases hne
  have hchars : (l :: ls).flatMap Quoted.chars ++ (r.next m).edge.rest =
      q :: (w ++ l.gap ++ ls.flatMap Quoted.chars ++ (r.next m).edge.rest) := by
    rw [List.flatMap_cons, Quoted.chars, hw]
    simp
  obtain ⟨hskips, hafter⟩ := h.skips hx (by simp [hk]) (by simp [hk])
    (Eq.trans hmark hchars) hqx
  exact ⟨l :: ls, q, hq, hls, by rwa [hchars], htext, hafter⟩

end Reader

namespace Delimiter

/-- The character that a delimiter is; of the two quotes one. -/
def char : Delimiter → Char
  | .equals => '='
  | .semicolon => ';'
  | .comma => ','
  | .dot => '.'
  | .colon => ':'
  | .leftParen => '('
  | .rightParen => ')'
  | .leftBrace => '\x7b'
  | .rightBrace => '\x7d'
  | .leftBracket => '['
  | .rightBracket => ']'
  | .leftAngle => '<'
  | .rightAngle => '>'
  | .minus => '-'
  | .plus => '+'
  | .slash => '/'
  | .quote => '"'

/-- No other character is the delimiter, unless it is a quote. -/
theorem eq_char {d : Delimiter} {x : Char} (h : ofChar? x = some d) (hd : d ≠ .quote) :
    x = d.char := by
  unfold ofChar? at h
  split at h <;> cases h <;> first | rfl | exact absurd rfl hd

end Delimiter

namespace Reading

variable {r : Reader} {x : Char} {s : List Char}

/-- Looking at the next token does not lose the place. -/
theorem peek_after (mode : Mode) (h : r.After x s) :
    Sat (peek mode) r (fun _ r' => r'.After x s) fun _ => True := by
  refine (next_sat mode).bind ?_
  rintro _ _ ⟨-, rfl⟩
  refine (putBack_sat mode).bind fun _ r' ⟨hback, _⟩ => sat_pure ?_
  exact h.putBack hback

/-- A delimiter that comes next is one character. -/
theorem next_delimiter {mode : Mode} {d : Delimiter}
    (hk : (r.next mode).token.kind = .delimiter d) (hd : d ≠ .quote) :
    (r.next mode).token.text.toList = [d.char] := by
  have hspelled := r.spelled_next mode
  rw [Token.Spelled, hk] at hspelled
  obtain ⟨y, hy, hchar⟩ := hspelled
  rw [hy, Delimiter.eq_char hchar hd]

/-- A delimiter that comes next is read with the gap in front of it. -/
theorem accept_after {d : Delimiter} (hd : d ≠ .quote) (h : r.After x s) (hx : IsSolid x)
    (hne : d.char ≠ x) : Sat (accept d) r (fun b r' => match b with
      | true => Skips s (d.char :: r'.edge.rest) ∧ r'.After d.char r'.edge.rest
      | false => r'.After x s) fun _ => True := by
  refine (next_sat .plain).bind ?_
  rintro k _ ⟨rfl, rfl⟩
  split
  · next hk =>
    exact sat_pure (h.next hx (by simp [hk]) (by simp [hk]) (by simp [hk])
      (next_delimiter hk hd) hne)
  · refine (putBack_sat .plain).bind fun _ r' ⟨hback, _⟩ => sat_pure ?_
    exact h.putBack hback

theorem expectDelimiter_after {d : Delimiter} (expected : String) (hd : d ≠ .quote)
    (h : r.After x s) (hx : IsSolid x) (hne : d.char ≠ x) :
    Sat (expectDelimiter d expected) r (fun _ r' => Skips s (d.char :: r'.edge.rest))
      fun _ => True := by
  refine Sat.bind (P := fun _ r' => Skips s (d.char :: r'.edge.rest)) ?_ fun _ _ h => sat_pure h
  refine (next_sat .plain).bind ?_
  rintro k _ ⟨rfl, rfl⟩
  split
  · next hk =>
    exact sat_text (h.next hx (by simp [hk]) (by simp [hk]) (by simp [hk])
      (next_delimiter hk hd) hne).1
  · exact reject_sat trivial

end Reading

end ProtoIdl
