import ProtoIdl.Proofs.Grammar.Remarked
import ProtoIdl.Proofs.Token.Verbatim
/-!
# The range of a comment

A comment runs from its first slash through the last character that is read for it. What stands there
is the comment (`Extent.cut`), but for one thing: the carriage returns in front of the end of a line
belong to the range of a line comment and not to its text (`Comment.returns`). That is so for every
comment that is handed out or queued, and since a file collects its comments from the queue, for every
comment of a file. Main statement: `comments_ranged`.
-/
namespace ProtoIdl

/-! ## The characters of a range -/

/-- The characters that start within the range, both ends included, of a text that begins at
`offset`. -/
def Extent.cut (x : Extent) : (offset : Int) → List Char → List Char
  | _, [] => []
  | offset, c :: rest =>
    let behind := x.cut (offset + c.utf8Size) rest
    if x.start.offset ≤ offset ∧ offset ≤ x.last.offset then c :: behind else behind

namespace Extent

variable {x : Extent}

theorem cut_append (x : Extent) (offset : Int) (u v : List Char) :
    x.cut offset (u ++ v) = x.cut offset u ++ x.cut (offset + (Utf8.encode u).length) v := by
  induction u generalizing offset with
  | nil => simp [cut]
  | cons c u ih =>
    have hnext : offset + c.utf8Size + (Utf8.encode u).length =
        offset + (Utf8.encode (c :: u)).length := by
      rw [Utf8.encode_cons, List.length_append, String.length_utf8EncodeChar]
      push_cast
      omega
    rw [List.cons_append, cut, cut, ih, hnext]
    split <;> rfl

/-- In front of the range nothing is in it. -/
theorem cut_before {offset : Int} {w : List Char}
    (h : offset + (Utf8.encode w).length ≤ x.start.offset) : x.cut offset w = [] := by
  induction w generalizing offset with
  | nil => rfl
  | cons c w ih =>
    have hpos := c.utf8Size_pos
    rw [Utf8.encode_cons, List.length_append, String.length_utf8EncodeChar] at h
    push_cast at h
    rw [cut, if_neg (by omega), ih (by omega)]

/-- Nor is anything behind it. -/
theorem cut_behind {offset : Int} {w : List Char} (h : x.last.offset < offset) :
    x.cut offset w = [] := by
  induction w generalizing offset with
  | nil => rfl
  | cons c w ih => rw [cut, if_neg (by omega), ih (by omega)]

/-- What starts in the range is in it. -/
theorem cut_within {offset : Int} {w : List Char} (hstart : x.start.offset ≤ offset)
    (hlast : ∀ v c, w = v ++ [c] → offset + (Utf8.encode v).length ≤ x.last.offset) :
    x.cut offset w = w := by
  induction w using List.reverseRecOn generalizing offset with
  | nil => rfl
  | append_singleton v c ih =>
    have hv := hlast v c rfl
    have hfirst : x.cut offset v = v := by
      refine ih hstart fun u d hu => ?_
      rw [hu, Utf8.encode_append, List.length_append] at hv
      omega
    rw [cut_append, hfirst, cut, if_pos ⟨by omega, hv⟩, cut]

/-- The characters from the start of `w` through its last one are `w`. -/
theorem cut_eq {before w after : List Char} (hw : w ≠ [])
    (hstart : x.start.offset = (Utf8.encode before).length)
    (hlast : x.last.offset = (Utf8.encode (before ++ w.dropLast)).length) :
    x.cut 0 (before ++ w ++ after) = w := by
  obtain ⟨v, c, rfl⟩ : ∃ v c, w = v ++ [c] := ⟨_, _, (List.dropLast_concat_getLast hw).symm⟩
  have hsize := c.utf8Size_pos
  rw [List.dropLast_concat, Utf8.encode_append, List.length_append] at hlast
  push_cast at hlast
  rw [cut_append, cut_append, cut_before (by omega), cut_within (by omega), cut_behind,
    List.nil_append, List.append_nil]
  · simp only [Utf8.encode_append, List.length_append, Utf8.encode_cons, Utf8.encode_nil,
      String.length_utf8EncodeChar, List.append_nil]
    push_cast
    omega
  · intro u d hu
    obtain ⟨rfl, -⟩ := List.append_inj' hu rfl
    omega

end Extent

namespace Comment

/-- The carriage returns in front of the end of a line, of the text behind a line comment. -/
def returns (k : Comment) (after : List Char) : List Char :=
  if k.isBlock then [] else after.takeWhile (· == '\r')

/-- The comment is in the text, and from its start through its last character there stand the comment
and the carriage returns behind it. -/
def RangedIn (chars : List Char) (k : Comment) : Prop :=
  ∃ before after, chars = before ++ k.raw.toList ++ after ∧
    k.extent.start.offset = (Utf8.encode before).length ∧
    k.extent.cut 0 chars = k.raw.toList ++ k.returns after

end Comment

/-! ## One comment -/

/-- The token starts at `c`; it is what stands there, and its last character is the last one in front
of the end of its line. -/
structure Token.CommentAt (c : Cursor) (t : Token) : Prop where
  position : t.position = c.position
  ne_nil : t.text.toList ≠ []
  last : ∃ after, c.rest = t.text.toList ++ after ∧ t.last = some
    (c.position.after (t.text.toList ++ (Comment.ofToken t).returns after).dropLast)

namespace Scan

variable {c : Cursor}

/-- A comment of `n` characters whose text is trimmed by the carriage returns. -/
theorem commentOf_at {n : Nat} {trim : List Char → List Char} {after : List Char}
    (hn : n ≤ c.rest.length) (hne : trim (c.rest.take n) ≠ [])
    (hrest : c.rest = trim (c.rest.take n) ++ after)
    (hreturns : c.rest.take n = trim (c.rest.take n) ++
      (Comment.mk (String.ofList (trim (c.rest.take n))) {}).returns after) :
    Ends (commentOf n trim) c (fun t _ => t.CommentAt c) fun _ => True := by
  refine Ends.bind (P := fun a d => a = c ∧ d = c) ⟨rfl, rfl⟩ ?_
  rintro _ c ⟨rfl, rfl⟩
  refine (skip_ends n).bind ?_
  rintro _ _ rfl
  refine ends_pure ⟨rfl, by rwa [String.toList_ofList], after, by rwa [String.toList_ofList], ?_⟩
  have htext : (String.ofList (trim (c.rest.take n))).toList ++
      (Comment.mk (String.ofList (trim (c.rest.take n))) {}).returns after = c.rest.take n := by
    rw [String.toList_ofList, ← hreturns]
  have hreturns_eq (x : Extent) : (Comment.mk (String.ofList (trim (c.rest.take n))) x).returns after =
      (Comment.mk (String.ofList (trim (c.rest.take n))) {}).returns after := rfl
  dsimp only [Comment.ofToken]
  rw [hreturns_eq, htext, Cursor.advance, List.dropLast_eq_take, List.take_take,
    List.length_take_of_le hn, Nat.min_eq_left (Nat.sub_le n 1)]

theorem not_isBlock {c : Cursor} {more : List Char} (hr : c.rest = '/' :: '/' :: more)
    {w after : List Char} (hrest : c.rest = w ++ after) (x : Extent) :
    (Comment.mk (String.ofList w) x).isBlock = false := by
  rw [Comment.isBlock, Bool.eq_false_iff, String.toList_ofList]
  intro h
  obtain ⟨v, hv⟩ := List.isPrefixOf_iff_prefix.1 h
  replace hv : ['/', '*'] ++ v = w := by simpa using hv
  rw [hr, ← hv] at hrest
  simp at hrest

/-- The carriage returns of a line end where the line does. -/
theorem returns_line {returns chars : List Char} (hreturns : returns.all (· == '\r') = true) :
    (returns ++ chars.dropWhile (· != '\n')).takeWhile (· == '\r') = returns := by
  rw [List.takeWhile_append_of_pos (List.all_eq_true.1 hreturns)]
  have hline := List.head?_dropWhile_not (· != '\n') chars
  cases hdrop : chars.dropWhile (· != '\n') with
  | nil => simp
  | cons y rest =>
    rw [hdrop] at hline
    obtain rfl : y = '\n' := by simpa using hline
    simp

/-- A comment that is read is one of the text. -/
theorem comment_at (hc : OpensComment c.rest) :
    Ends comment c (fun t _ => t.kind = .comment → t.CommentAt c) fun _ => True := by
  refine comment_cases hc (fun _ => trivial) ?line ?block fun h => by cases h
  case line =>
    intro more hr
    obtain ⟨returns, hsplit, hreturns, hne⟩ := line_kept hr
    have hprefix := List.takeWhile_prefix (l := c.rest) (· != '\n')
    have htake := (List.prefix_iff_eq_take.1 hprefix).symm
    have hrest : c.rest = dropReturns (c.rest.takeWhile (· != '\n')) ++
        (returns ++ c.rest.dropWhile (· != '\n')) := by
      rw [← List.append_assoc, ← hsplit, List.takeWhile_append_dropWhile]
    refine (commentOf_at hprefix.length_le (by rwa [htake]) (by rwa [htake]) ?_).mono
      fun _ _ h _ => h
    rw [htake, Comment.returns, if_neg (by simp [not_isBlock hr hrest]), returns_line hreturns]
    exact hsplit
  case block =>
    intro more n hr _ hlen
    have hblock : (Comment.mk (String.ofList (c.rest.take (n + 2))) {}).isBlock = true := by
      rw [Comment.isBlock, String.toList_ofList, hr]
      simp
    refine (commentOf_at hlen ?_ (List.take_append_drop (n + 2) c.rest).symm ?_).mono
      fun _ _ h _ => h
    · rw [id, hr]
      simp
    · rw [id, Comment.returns, if_pos hblock, List.append_nil]

end Scan

namespace Token

variable {t : Token}

/-- A comment in a text has its range there. -/
theorem RemarkIn.rangedIn {chars : List Char} {file : String}
    (h : t.RemarkIn (Cursor.ofBytes (Utf8.encode chars) file)) :
    t.last.isSome = true ∧ (Comment.ofToken t).RangedIn chars := by
  obtain ⟨c, hc, hopen, hk, d, hread⟩ := h
  have h : t.CommentAt c := (Scan.comment_at hopen).ok hread hk
  obtain ⟨before, hsplit, hpos⟩ := hc.split
  obtain ⟨after, hrest, hlast⟩ := h.last
  obtain ⟨more, hmore⟩ : ∃ more, after = (Comment.ofToken t).returns after ++ more := by
    unfold Comment.returns
    split
    · exact ⟨after, rfl⟩
    · exact ⟨_, (List.takeWhile_append_dropWhile).symm⟩
  have hstart : (Comment.ofToken t).extent.start.offset = (Utf8.encode before).length := by
    show t.position.offset = _
    rw [h.position, hpos, Position.offset_after, Position.first, Int.zero_add]
  refine ⟨by rw [hlast]; rfl, before, after, by rw [hsplit, hrest, List.append_assoc]; rfl, hstart, ?_⟩
  have hchars : chars = before ++ (t.text.toList ++ (Comment.ofToken t).returns after) ++ more := by
    rw [hsplit, hrest, List.append_assoc, List.append_assoc, ← hmore]
  conv => lhs; rw [hchars]
  refine Extent.cut_eq (List.append_ne_nil_of_left_ne_nil h.ne_nil _) hstart ?_
  show (t.last.getD t.position).offset = _
  rw [hlast, Option.getD_some, hpos, ← Position.after_append, Position.offset_after, Position.first,
    Int.zero_add]

end Token

/-! ## Files -/

/-- What stands in the range of a comment is the comment, and behind a line comment the carriage
returns in front of the end of its line; so it is the comment alone unless there are any. That holds of
all comments that are handed out or queued, whatever is called, and of all comments of a file. -/
theorem comments_ranged (opts : Grammar.Options) (chars : List Char) (file : String) :
    (∀ calls, let run := (TokenStream.ofBytes (Utf8.encode chars) file).calls calls
      ∀ t ∈ run.1 ++ run.2.pending, t.kind = .comment →
        t.last.isSome = true ∧ (Comment.ofToken t).RangedIn chars) ∧
    ∀ f, parse opts (Utf8.encode chars) file = .ok f → ∀ k ∈ f.comments, k.RangedIn chars := by
  refine ⟨fun calls => ?_, fun f hf => ?_⟩
  · obtain ⟨htokens, hqueue⟩ := TokenStream.calls_remarks calls
      (TokenStream.within_ofBytes (Utf8.encode chars) file) (List.forall_mem_nil _)
    refine List.forall_mem_append.2 ⟨fun t ht hk => (htokens t ht hk).rangedIn, fun t ht _ => ?_⟩
    exact (hqueue t ht).rangedIn
  · exact Grammar.file_remarks hf fun _ h => h.rangedIn.2

theorem comments_ranged_sample : ∃ f t, parse {} sampleText "m.proto" = .ok f ∧
    f.comments.length = 3 ∧ (∀ k ∈ f.comments, k.RangedIn (Utf8.decode sampleText).1) ∧
    ((TokenStream.ofBytes (Utf8.encode "// a".toList) "").calls [.scan { comments := true }]).1 =
      [t] ∧ t.kind = .comment ∧ (Comment.ofToken t).RangedIn "// a".toList := by
  obtain ⟨f, hf, -, -, hlen, -⟩ := parse_sample
  have hkind : ((TokenStream.ofBytes (Utf8.encode "// a".toList) "").scan
      { comments := true }).1.kind = .comment := by decide +kernel
  have hsample : sampleText = Utf8.encode (Utf8.decode sampleText).1 := by decide +kernel
  refine ⟨f, _, hf, hlen, ?_, rfl, hkind, ?_⟩
  · exact (comments_ranged {} (Utf8.decode sampleText).1 "m.proto").2 f (hsample ▸ hf)
  · exact ((comments_ranged {} "// a".toList "").1 [.scan { comments := true }] _
      List.mem_cons_self hkind).2

/-- A comment that ends with a carriage return, as its range has it. -/
def returnText : List Char := "//a\r\nmessage M \x7b\x7d".toList

/-- The range of a line comment is longer than the comment where a carriage return ends its line. -/
theorem comment_range_longer : ∃ f k, parse {} (Utf8.encode returnText) "" = .ok f ∧
    k ∈ f.comments ∧ k.extent.cut 0 returnText ≠ k.raw.toList := by
  have h : (parse {} (Utf8.encode returnText) "").toOption.any (fun f =>
      f.comments.any fun k => decide (k.extent.cut 0 returnText ≠ k.raw.toList)) = true := by
    decide +kernel
  obtain ⟨f, hf, hany⟩ := exists_ok h
  obtain ⟨k, hk, hne⟩ := List.any_eq_true.1 hany
  exact ⟨f, k, hf, hk, of_decide_eq_true hne⟩

end ProtoIdl
