import ProtoIdl.Proofs.Grammar.Remarked
import ProtoIdl.Proofs.Token.Verbatim
/-!
# Where a comment ends

A line comment goes on to the end of its line and leaves out the carriage returns there
(`Comment.OfLine`). A block comment goes on to the first `*/` behind its opening, so a closer that
overlaps the opening (`/*/`) does not count (`Comment.OfBlock`). Both texts are as long as their
delimiters at least, which is why the lines of a comment give its text back
(`Comment.rejoined`). Main statement: `comments_delimited`.
-/
namespace ProtoIdl

namespace Comment

/-- The text of a line comment, with what stands behind it. -/
structure OfLine (w after : List Char) : Prop where
  opens : ['/', '/'] <+: w
  newline_not_mem : '\n' ∉ w
  last : w.getLast? ≠ some '\r'
  behind : ∃ returns rest, after = returns ++ rest ∧ (∀ c ∈ returns, c = '\r') ∧
    (rest = [] ∨ ∃ more, rest = '\n' :: more)

/-- The text of a block comment. -/
structure OfBlock (w : List Char) : Prop where
  opens : ['/', '*'] <+: w
  closes : ['*', '/'] <:+ w
  length : 4 ≤ w.length
  once : ∀ i, 2 ≤ i → ['*', '/'] <+: w.drop i → i + 2 = w.length

/-- The comment stands in the text at its place, and ends there as its opening wants it. -/
def DelimitedIn (chars : List Char) (k : Comment) : Prop :=
  ∃ before after, chars = before ++ k.raw.toList ++ after ∧
    k.extent.start.offset = (Utf8.encode before).length ∧
    if k.isBlock then OfBlock k.raw.toList else OfLine k.raw.toList after

/-- The lines, joined by newlines, between the delimiters of the comment. -/
def rejoined (k : Comment) : String :=
  let text := "\n".intercalate k.lines
  if k.isBlock then "/*" ++ text ++ "*/" else "//" ++ text

/-! ## Lines -/

theorem splitLines_ne_nil (chars : List Char) : splitLines chars ≠ [] := by
  cases chars with
  | nil => simp [splitLines]
  | cons c rest =>
    by_cases hc : c = '\n'
    · simp [splitLines, hc]
    · cases h : splitLines rest <;> simp [splitLines, hc, h]

/-- The lines of a text, joined, are the text. -/
theorem intercalate_splitLines (chars : List Char) :
    ['\n'].intercalate (splitLines chars) = chars := by
  induction chars with
  | nil => simp [splitLines]
  | cons c rest ih =>
    obtain ⟨line, lines, h⟩ := List.exists_cons_of_ne_nil (splitLines_ne_nil rest)
    rw [h] at ih
    by_cases hc : c = '\n'
    · subst hc
      simp only [splitLines, ↓reduceIte, h]
      rw [List.intercalate_cons_cons, ih]
      rfl
    · simp only [splitLines, hc, ↓reduceIte, h]
      -- The first line grows at its front, whether it is the only one or not.
      cases lines with
      | nil => simpa using ih
      | cons next lines =>
        rw [List.intercalate_cons_cons] at ih ⊢
        simpa using ih

variable {k : Comment}

theorem OfLine.not_isBlock {after : List Char} (h : OfLine k.raw.toList after) :
    k.isBlock = false := by
  obtain ⟨v, hv⟩ := h.opens
  simp [isBlock, ← hv, List.isPrefixOf]

theorem OfBlock.isBlock (h : OfBlock k.raw.toList) : k.isBlock = true := by
  obtain ⟨v, hv⟩ := h.opens
  simp [Comment.isBlock, ← hv]

theorem rejoined_of_line {after : List Char} (h : OfLine k.raw.toList after) :
    k.rejoined = k.raw := by
  obtain ⟨v, hv⟩ := h.opens
  apply String.toList_injective
  simp [rejoined, lines, h.not_isBlock, ← hv]

theorem rejoined_of_block (h : OfBlock k.raw.toList) : k.rejoined = k.raw := by
  obtain ⟨v, hv⟩ := h.opens
  obtain ⟨u, hu⟩ := h.closes
  -- The delimiters do not overlap, for the text is long enough to hold both.
  obtain ⟨inner, rfl⟩ : ∃ inner, u = '/' :: '*' :: inner := by
    have hlen : 2 ≤ u.length := by
      have := h.length
      rw [← hu] at this
      simpa using this
    match u, hlen with
    | a :: b :: inner, _ =>
      rw [← hu] at hv
      simp only [List.cons_append, List.nil_append, List.cons.injEq] at hv
      exact ⟨inner, by rw [← hv.1, ← hv.2.1]⟩
  apply String.toList_injective
  have hinner : ((k.raw.toList.take (k.raw.toList.length - 2)).drop 2) = inner := by
    rw [← hu]
    simp
  simp only [rejoined, lines, h.isBlock, ↓reduceIte, hinner, String.toList_append,
    String.toList_intercalate, List.map_map]
  have hmap : (String.toList ∘ String.ofList) = id := by
    funext l
    simp
  rw [hmap, List.map_id]
  show ['/', '*'] ++ ['\n'].intercalate (splitLines inner) ++ ['*', '/'] = k.raw.toList
  rw [intercalate_splitLines, ← hu]
  rfl

/-- Where a comment ends as it should, its lines are all of it. -/
theorem DelimitedIn.rejoined {chars : List Char} (h : k.DelimitedIn chars) :
    k.rejoined = k.raw := by
  obtain ⟨before, after, -, -, hform⟩ := h
  split at hform
  · exact rejoined_of_block hform
  · exact rejoined_of_line hform

end Comment

namespace Scan

open Comment (OfLine OfBlock)

/-! ## The first closer -/

theorem untilClosed_closes {chars : List Char} {n : Nat} (h : untilClosed chars = some n) :
    ['*', '/'] <:+ chars.take n := by
  induction chars using untilClosed.induct generalizing n with
  | case1 rest =>
    simp only [untilClosed, Option.some.injEq] at h
    simp [← h]
  | case2 char rest hne ih =>
    rw [untilClosed, Option.map_eq_some_iff] at h
    · obtain ⟨m, hm, rfl⟩ := h
      rw [List.take_succ_cons]
      exact (ih hm).trans (List.suffix_cons _ _)
    · exact hne
  | case3 => cases h

/-- No closer ends in front of the first one. -/
theorem untilClosed_le {chars : List Char} {n i : Nat} (h : untilClosed chars = some n)
    (hi : ['*', '/'] <+: chars.drop i) : n ≤ i + 2 := by
  induction chars using untilClosed.induct generalizing n i with
  | case1 rest =>
    simp only [untilClosed, Option.some.injEq] at h
    omega
  | case2 char rest hne ih =>
    rw [untilClosed, Option.map_eq_some_iff] at h
    · obtain ⟨m, hm, rfl⟩ := h
      cases i with
      | zero =>
        obtain ⟨v, hv⟩ := hi
        simp only [List.drop_zero, List.cons_append, List.nil_append, List.cons.injEq] at hv
        exact absurd hv.2.symm (hne v hv.1.symm)
      | succ i =>
        have := ih hm hi
        omega
    · exact hne
  | case3 => cases h

/-- From an opening through the first closer behind it there stands a block comment. -/
theorem ofBlock_take {more : List Char} {n : Nat} (h : untilClosed more = some n) :
    OfBlock (('/' :: '*' :: more).take (n + 2)) := by
  have hle := untilClosed_bounds h
  have htake : ('/' :: '*' :: more).take (n + 2) = '/' :: '*' :: more.take n := rfl
  have hlen : (more.take n).length = n := List.length_take_of_le hle
  have hcloses := untilClosed_closes h
  rw [htake]
  refine ⟨⟨more.take n, rfl⟩, ?closes, ?length, ?once⟩
  case closes => exact (hcloses.trans (List.suffix_cons _ _)).trans (List.suffix_cons _ _)
  case length =>
    have := hcloses.length_le
    simp only [List.length_cons, List.length_nil] at this ⊢
    omega
  case once =>
    intro i hi hclose
    obtain ⟨i, rfl⟩ : ∃ j, i = j + 2 := ⟨i - 2, by omega⟩
    simp only [List.drop_succ_cons] at hclose
    have hfits := hclose.length_le
    have hfirst : ['*', '/'] <+: more.drop i := by
      rw [List.drop_take] at hclose
      exact hclose.trans (List.take_prefix _ _)
    have := untilClosed_le h hfirst
    simp only [List.length_drop, List.length_cons, List.length_nil, hlen] at hfits ⊢
    omega

/-! ## The end of the line -/

theorem dropReturns_getLast? (chars : List Char) : (dropReturns chars).getLast? ≠ some '\r' := by
  unfold dropReturns
  rw [List.getLast?_reverse]
  have h := List.head?_dropWhile_not (· == '\r') chars.reverse
  intro hlast
  rw [hlast] at h
  simp at h

/-- The two slashes are not trimmed from the line. -/
theorem ofLine_dropReturns {c : Cursor} {more : List Char} (hr : c.rest = '/' :: '/' :: more) :
    ∃ returns, c.rest.takeWhile (· != '\n') =
        dropReturns (c.rest.takeWhile (· != '\n')) ++ returns ∧
      OfLine (dropReturns (c.rest.takeWhile (· != '\n')))
        (returns ++ c.rest.dropWhile (· != '\n')) := by
  obtain ⟨returns, hsplit, hreturns⟩ := dropReturns_append (c.rest.takeWhile (· != '\n'))
  have hall : ∀ x ∈ returns, x = '\r' := by simpa using hreturns
  refine ⟨returns, hsplit, ?opens, ?newline, dropReturns_getLast? _, returns, _, rfl, hall, ?rest⟩
  case opens =>
    have hline : c.rest.takeWhile (· != '\n') = '/' :: '/' :: more.takeWhile (· != '\n') := by
      simp [hr]
    have hopen : ['/', '/'] <+: c.rest.takeWhile (· != '\n') := ⟨_, hline.symm⟩
    generalize dropReturns (c.rest.takeWhile (· != '\n')) = kept at hsplit ⊢
    by_cases hlong : 2 ≤ kept.length
    · rw [hsplit] at hopen
      exact List.prefix_of_prefix_length_le hopen (List.prefix_append _ _) hlong
    · have hsecond : (kept ++ returns)[1]? = some '/' := by
        rw [← hsplit, hline]
        rfl
      rw [List.getElem?_append_right (by omega)] at hsecond
      exact absurd (hall _ (List.mem_of_getElem? hsecond)) (by decide)
  case newline =>
    intro hmem
    have : '\n' ∈ c.rest.takeWhile (· != '\n') := by
      rw [hsplit]
      exact List.mem_append_left _ hmem
    simpa using List.mem_takeWhile_imp this
  case rest =>
    have hline := List.head?_dropWhile_not (· != '\n') c.rest
    cases hdrop : c.rest.dropWhile (· != '\n') with
    | nil => exact .inl rfl
    | cons y rest =>
      rw [hdrop] at hline
      obtain rfl : y = '\n' := by simpa using hline
      exact .inr ⟨rest, rfl⟩

/-! ## A comment that is read -/

theorem commentOf_text {c : Cursor} {n : Nat} {trim : List Char → List Char} {P : List Char → Prop}
    (h : P (trim (c.rest.take n))) {E : LexicalError → Prop} :
    Ends (commentOf n trim) c (fun t _ => t.position = c.position ∧ P t.text.toList) E := by
  refine Ends.bind (P := fun a d => a = c ∧ d = c) ⟨rfl, rfl⟩ ?_
  rintro _ c ⟨rfl, rfl⟩
  refine (skip_ends n).bind ?_
  rintro _ _ rfl
  refine ends_pure ⟨rfl, ?_⟩
  rwa [String.toList_ofList]

/-- A comment that is read stands where it is read from, and is of one of the two forms. -/
theorem comment_delimits {c : Cursor} (hc : OpensComment c.rest) :
    Ends comment c (fun t _ => t.kind = .comment → t.position = c.position ∧
      ∃ after, c.rest = t.text.toList ++ after ∧
        (OfBlock t.text.toList ∨ OfLine t.text.toList after)) fun _ => True := by
  refine comment_cases hc (fun _ => trivial) ?line ?block fun h => by cases h
  case line =>
    intro more hr
    obtain ⟨returns, hsplit, hform⟩ := ofLine_dropReturns hr
    refine (commentOf_text (P := fun w => ∃ after, c.rest = w ++ after ∧ (OfBlock w ∨ OfLine w after))
      ?_).mono fun _ _ h _ => h
    have htake := (List.prefix_iff_eq_take.1 (List.takeWhile_prefix (l := c.rest) (· != '\n'))).symm
    rw [htake]
    refine ⟨_, ?_, .inr hform⟩
    rw [← List.append_assoc, ← hsplit, List.takeWhile_append_dropWhile]
  case block =>
    intro more n hr hn _
    refine (commentOf_text (P := fun w => ∃ after, c.rest = w ++ after ∧ (OfBlock w ∨ OfLine w after))
      ⟨c.rest.drop (n + 2), (List.take_append_drop _ _).symm, .inl ?_⟩).mono fun _ _ h _ => h
    rw [id, hr]
    exact ofBlock_take hn

end Scan

/-- A comment of a text is delimited there. -/
theorem Token.RemarkIn.delimitedIn {chars : List Char} {file : String} {t : Token}
    (h : t.RemarkIn (Cursor.ofBytes (Utf8.encode chars) file)) :
    (Comment.ofToken t).DelimitedIn chars := by
  obtain ⟨c, hc, hopen, hk, d, hread⟩ := h
  obtain ⟨hplace, after, hrest, hform⟩ := (Scan.comment_delimits hopen).ok hread hk
  obtain ⟨before, hsplit, hpos⟩ := hc.split
  refine ⟨before, after, by rw [hsplit, hrest, List.append_assoc]; rfl, ?offset, ?form⟩
  case offset =>
    show t.position.offset = _
    rw [hplace, hpos, Position.offset_after, Position.first, Int.zero_add]
  case form =>
    rcases hform with hblock | hline
    · rwa [Comment.OfBlock.isBlock (k := Comment.ofToken t) hblock]
    · rwa [Comment.OfLine.not_isBlock (k := Comment.ofToken t) hline]

/-- Every comment of a text, handed out or queued, whatever is called, ends where its opening wants it:
a line comment in front of the end of its line and of the carriage returns there, a block comment with the
first `*/` behind its opening. Its lines, joined and put between its delimiters, are its text. That is
so too for every comment of a file. -/
theorem comments_delimited (opts : Grammar.Options) (chars : List Char) (file : String) :
    (∀ calls, let run := (TokenStream.ofBytes (Utf8.encode chars) file).calls calls
      ∀ t ∈ run.1 ++ run.2.pending, t.kind = .comment →
        (Comment.ofToken t).DelimitedIn chars ∧ (Comment.ofToken t).rejoined = t.text) ∧
    ∀ f, parse opts (Utf8.encode chars) file = .ok f →
      ∀ k ∈ f.comments, k.DelimitedIn chars ∧ k.rejoined = k.raw := by
  refine ⟨fun calls t ht hk => ?tokens, fun f hf k hk => ?file⟩
  case tokens =>
    obtain ⟨htokens, hqueue⟩ := TokenStream.calls_remarks calls
      (TokenStream.within_ofBytes (Utf8.encode chars) file) (List.forall_mem_nil _)
    have hremark : t.RemarkIn (Cursor.ofBytes (Utf8.encode chars) file) := by
      rcases List.mem_append.1 ht with ht | ht
      · exact htokens t ht hk
      · exact hqueue t ht
    exact ⟨hremark.delimitedIn, hremark.delimitedIn.rejoined⟩
  case file =>
    have hdelimited := Grammar.file_remarks hf (P := Comment.DelimitedIn chars)
      (fun _ h => h.delimitedIn) k hk
    exact ⟨hdelimited, hdelimited.rejoined⟩

theorem comments_delimited_sample : ∃ f t, parse {} sampleText "m.proto" = .ok f ∧
    f.comments.length = 3 ∧ (∀ k ∈ f.comments, k.rejoined = k.raw) ∧
    ((TokenStream.ofBytes (Utf8.encode "/*/ **/*".toList) "").calls [.scan { comments := true }]).1 =
      [t] ∧ t.kind = .comment ∧ t.text = "/*/ **/" ∧
      (Comment.ofToken t).DelimitedIn "/*/ **/*".toList := by
  obtain ⟨f, hf, -, -, hlen, -⟩ := parse_sample
  have hkind : ((TokenStream.ofBytes (Utf8.encode "/*/ **/*".toList) "").scan
      { comments := true }).1.kind = .comment := by decide +kernel
  have hsample : sampleText = Utf8.encode (Utf8.decode sampleText).1 := by decide +kernel
  refine ⟨f, _, hf, hlen, fun k hk => ?_, rfl, hkind, by decide +kernel, ?_⟩
  · exact ((comments_delimited {} (Utf8.decode sampleText).1 "m.proto").2 f (hsample ▸ hf) k hk).2
  · exact ((comments_delimited {} "/*/ **/*".toList "").1 [.scan { comments := true }] _
      List.mem_cons_self hkind).1

end ProtoIdl
