import ProtoIdl.Parse
import ProtoIdl.Proofs.Grammar.Bodies
import ProtoIdl.Proofs.Grammar.Charted
import ProtoIdl.Proofs.Tree.Clear
/-!
# Where the nodes and the comments of a file stand

Main statements: every place that is named is a true coordinate (`parse_places_true`), the ranges of
a file nest and are in order (`parse_ranges_nested`), and its comments sit in slots between the
declarations (`parse_comments_slotted`).
-/
namespace ProtoIdl

/-- Both ends of the range are coordinates of the octets. -/
def Extent.TrueIn (bytes : List UInt8) (file : String) (x : Extent) : Prop :=
  x.start.TrueIn bytes file ∧ x.last.TrueIn bytes file

/-- The places that a token names are coordinates of the octets. -/
structure Token.TrueIn (bytes : List UInt8) (file : String) (t : Token) : Prop where
  position : t.position.TrueIn bytes file
  last : ∀ p, t.last = some p → p.TrueIn bytes file
  error : ∀ e, t.error = some e → e.position.TrueIn bytes file

theorem Cursor.Sees.trueIn {bytes : List UInt8} {file : String} {p : Position} :
    (Cursor.ofBytes bytes file).Sees p → p.TrueIn bytes file
  | ⟨_, hd, hp⟩ => hp ▸ hd.trueIn

theorem TokenStream.within_ofBytes (bytes : List UInt8) (file : String) :
    (TokenStream.ofBytes bytes file).Within (Cursor.ofBytes bytes file) :=
  Source.within_ofBytes bytes file

section
variable {opts : Grammar.Options} {bytes : List UInt8} {file : String}

theorem parse_ok {f : File} (h : parse opts bytes file = .ok f) :
    ∃ r, Grammar.file opts (Reader.ofBytes bytes file) = .ok f r := by
  unfold parse parseWith Reading.outcome at h
  split at h
  · next g r hg =>
    cases h
    exact ⟨r, hg⟩
  · cases h

/-- A file that is read has no ill-formed octets. -/
theorem parse_whole {f : File} (h : parse opts bytes file = .ok f) : (Utf8.decode bytes).2 = none := by
  obtain ⟨r, hr⟩ := parse_ok h
  exact (Grammar.file_charted opts (Grammar.charted_ofBytes bytes file)).ok hr

theorem parse_error {e : Failure} (h : parse opts bytes file = .error e) :
    ∃ r, Grammar.file opts (Reader.ofBytes bytes file) = .error e r := by
  unfold parse parseWith Reading.outcome at h
  split at h
  · cases h
  · next e' r he =>
    cases h
    exact ⟨r, he⟩

/-- The failure that reading ends in, if it does. -/
def failure? : Except Failure File → Option Failure
  | .ok _ => none
  | .error e => some e

theorem eq_error {run : Except Failure File} {e : Failure} (h : failure? run = some e) :
    run = .error e := by
  cases run with
  | ok f => cases h
  | error e' => rw [Option.some.inj h]

/-- A test of what is read tells that something is. -/
theorem exists_ok {run : Except Failure File} {p : File → Bool} (h : run.toOption.any p = true) :
    ∃ f, run = .ok f ∧ p f = true := by
  cases run with
  | ok f => exact ⟨f, rfl, h⟩
  | error e => cases h

theorem Reader.edge_ofBytes (bytes : List UInt8) (file : String) :
    (Reader.ofBytes bytes file).edge = Cursor.ofBytes bytes file := rfl

theorem Reader.pending_ofBytes (bytes : List UInt8) (file : String) :
    (Reader.ofBytes bytes file).stream.pending = [] := rfl

theorem Reader.rounds_ofBytes (bytes : List UInt8) (file : String) :
    (Reader.ofBytes bytes file).stream.rounds = (Cursor.ofBytes bytes file).rest.length + 1 := rfl

/-- The first reader of a text without ill-formed octets. -/
theorem Reader.past_ofBytes (h : (Cursor.ofBytes bytes file).ending = none) :
    (Reader.ofBytes bytes file).Past (Cursor.ofBytes bytes file) where
  whole := h
  reached := edge_ofBytes bytes file ▸ .refl _
  rounds := by
    rw [edge_ofBytes, rounds_ofBytes]
    exact Nat.lt_succ_self _
  queue := by simp [pending_ofBytes]

/-- A file that is read is laid out as the grammar has it. -/
theorem parse_laid {f : File} (h : parse opts bytes file = .ok f) :
    f.Laid (Cursor.ofBytes bytes file) := by
  obtain ⟨r, hr⟩ := parse_ok h
  have hend := (Grammar.file_charted opts (Grammar.charted_ofBytes bytes file)).ok hr
  have hreached : (Cursor.ofBytes bytes file).Reaches (Reader.ofBytes bytes file).edge :=
    Reader.edge_ofBytes bytes file ▸ .refl _
  have hlaid := Grammar.file_gives opts (Reader.past_ofBytes hend) hreached
    (Reader.pending_ofBytes bytes file)
  exact hlaid.ok hr

namespace File.Laid

variable {c : Cursor} {f : File}

theorem sound (h : f.Laid c) {n : Node} (hn : f.Has n) : n.All (Node.Sound c) := by
  obtain ⟨lo, hi, ht⟩ := h.siblings
  exact hn.all fun e he => ht.sound e (f.siblings_perm.mem_iff.2 he)

theorem lies (h : f.Laid c) : ∃ lo hi, ∀ k ∈ f.comments, k.Lies c lo hi := by
  obtain ⟨lo, hi, ht⟩ := h.siblings
  refine ⟨lo, hi, fun k hk => ht.comments k ?_⟩
  obtain ⟨e, he, hk⟩ := Element.mem_commentsAll.1 hk
  exact Element.mem_commentsAll.2 ⟨e, f.siblings_perm.mem_iff.2 he, hk⟩

theorem distinct (h : f.Laid c) : f.comments.Pairwise Comment.Distinct := by
  obtain ⟨lo, hi, ht⟩ := h.siblings
  have hd := ht.distinct
  unfold File.comments
  rw [Element.commentsAll_eq] at hd ⊢
  exact ((f.siblings_perm.flatMap_right _).pairwise_iff fun h => h.symm).1 hd

theorem siblings_ordered (h : f.Laid c) : f.siblings.Pairwise Element.Before := by
  obtain ⟨lo, hi, ht⟩ := h.siblings
  exact ht.ordered

theorem siblings_apart (h : f.Laid c) : f.siblings.Pairwise Element.Apart := by
  obtain ⟨lo, hi, ht⟩ := h.siblings
  exact ht.apart

/-- No comment of the file is inside a statement or a head. -/
theorem spares (h : f.Laid c) {e : Element} (he : f.Has (.element e)) : e.Spares c f.comments := by
  obtain ⟨lo, hi, hlies⟩ := h.lies
  have hmem (k : Comment) : k ∈ Element.commentsAll f.siblings ↔ k ∈ f.comments := by
    simp only [File.comments, Element.mem_commentsAll, f.siblings_perm.mem_iff]
  have hsound (d : Element) (hd : d ∈ f.siblings) : Node.All (Node.Sound c) (.element d) :=
    h.sound (.top (f.siblings_perm.mem_iff.1 hd))
  have hown (d : Element) (hd : d ∈ f.siblings) : Node.All (Node.Spares c d.comments) (.element d) :=
    Element.clear_of_sound (hsound d hd) fun k hk =>
      (hlies k ((hmem k).1 (Element.mem_commentsAll.2 ⟨d, hd, hk⟩))).le
  have hall := Element.siblings_spare hsound h.siblings_apart
    (fun k hk => (hlies k ((hmem k).1 hk)).le) hown
  have hspares := he.all fun d hd => hall d (f.siblings_perm.mem_iff.2 hd)
  exact fun k hk => hspares.self e rfl k ((hmem k).2 hk)

end File.Laid

theorem File.body_sublist (f : File) : f.body.Sublist f.siblings := by
  unfold siblings
  cases f.version with
  | none => exact .refl _
  | some v =>
    dsimp only
    generalize (fun e : Element =>
      decide (e.extent.start.offset < v.notes.extent.start.offset)) = before
    have h : (f.body.takeWhile before ++ f.body.dropWhile before).Sublist
        (f.body.takeWhile before ++ .statement (.version v.item) v.notes ::
          f.body.dropWhile before) := (List.sublist_cons_self _ _).append_left _
    rwa [List.takeWhile_append_dropWhile] at h

/-! ## What holds of every file -/

/-- A message and a service, behind the version and two comments. -/
def sampleText : List UInt8 :=
  Utf8.encode ("syntax = \"proto3\";\n/* a */\n/* b */ message M \x7b int32 x = 1; // c\n\x7d\n" ++
    "service S \x7b rpc R (M) returns (M); \x7d").toList

/-- What is read of the sample. The first comment leads the message, and the second one stays in
front of it as an element. -/
theorem parse_sample : ∃ f, parse {} sampleText "m.proto" = .ok f ∧ f.version.isSome = true ∧
    f.body.length = 3 ∧ f.comments.length = 3 ∧
      ∃ p ∈ f.body.zip f.body.tail, ∃ k ∈ (p.2.notes?.getD {}).leading,
        ¬ p.1.extent.last.offset < k.extent.start.offset := by
  have h : (parse {} sampleText "m.proto").toOption.any (fun f => f.version.isSome &&
      (decide (f.body.length = 3) && (decide (f.comments.length = 3) &&
        (f.body.zip f.body.tail).any fun p => (p.2.notes?.getD {}).leading.any fun k =>
          decide (¬ p.1.extent.last.offset < k.extent.start.offset)))) = true := by
    decide +kernel
  obtain ⟨f, hf, hsample⟩ := exists_ok h
  simp only [Bool.and_eq_true, decide_eq_true_eq, List.any_eq_true] at hsample
  exact ⟨f, hf, hsample⟩

/-- Every place that is named is a true coordinate: those of the nodes and the comments of a file
that is read, that of a failure, and those of the tokens handed out by any run of calls. -/
theorem parse_places_true (opts : Grammar.Options) (bytes : List UInt8) (file : String) :
    (∀ f, parse opts bytes file = .ok f →
      (∀ n, f.Has n → n.extent.TrueIn bytes file) ∧
        ∀ k ∈ f.comments, k.extent.TrueIn bytes file) ∧
    (∀ e, parse opts bytes file = .error e → ∀ p, e.position? = some p → p.TrueIn bytes file) ∧
    ∀ calls, ∀ t ∈ ((TokenStream.ofBytes bytes file).calls calls).1, t.TrueIn bytes file := by
  refine ⟨fun f hf => ⟨fun n hn => ?_, fun k hk => ?_⟩, fun e he p hp => ?_, fun calls t ht => ?_⟩
  · have h := ((parse_laid hf).sound hn).self
    exact ⟨h.start_seen.trueIn, h.last_seen.trueIn⟩
  · obtain ⟨lo, hi, h⟩ := (parse_laid hf).lies
    exact ⟨(h k hk).start_seen.trueIn, (h k hk).last_seen.trueIn⟩
  · obtain ⟨r, hr⟩ := parse_error he
    have h := (Grammar.file_charted opts (Grammar.charted_ofBytes bytes file)).error hr
    exact (h p hp).trueIn
  · have h := ((TokenStream.within_ofBytes bytes file).calls calls).1 t ht
    exact ⟨h.position.trueIn, fun p hp => (h.last p hp).trueIn, fun e he => (h.error e he).trueIn⟩

theorem parse_places_true_sample :
    (∃ f, parse {} sampleText "m.proto" = .ok f ∧
      ∀ n, f.Has n → n.extent.TrueIn sampleText "m.proto") ∧
    ∃ e p, parse {} (sampleText.take 6) "m.proto" = .error e ∧ e.position? = some p ∧
      p.TrueIn (sampleText.take 6) "m.proto" := by
  refine ⟨?_, ?_⟩
  · obtain ⟨f, hf, -⟩ := parse_sample
    exact ⟨f, hf, ((parse_places_true {} sampleText "m.proto").1 f hf).1⟩
  · have hp : (match parse {} (sampleText.take 6) "m.proto" with
        | .ok _ => none
        | .error e => e.position?).isSome = true := by decide +kernel
    obtain ⟨p, hp⟩ := Option.isSome_iff_exists.1 hp
    split at hp
    · cases hp
    · next e he =>
      exact ⟨e, p, he, hp, (parse_places_true {} (sampleText.take 6) "m.proto").2.1 e he p hp⟩

/-- The ranges of a file nest: every node encloses what is below it. Bodies are in order, and only
comments start before the version ends. -/
theorem parse_ranges_nested (opts : Grammar.Options) (bytes : List UInt8) (file : String) (f : File)
    (h : parse opts bytes file = .ok f) :
    (∀ n, f.Has n → n.extent.start.offset ≤ n.extent.last.offset ∧ n.All n.Encloses) ∧
    (∀ e, f.Has (.element e) → e.body.Pairwise Element.Before) ∧ f.body.Pairwise Element.Before ∧
    ∀ v, f.version = some v → ∀ e ∈ f.body, (∀ k, e ≠ .comment k) →
      v.notes.extent.last.offset < e.extent.start.offset := by
  have hf := parse_laid h
  refine ⟨fun n hn => ⟨(hf.sound hn).self.ordered, (hf.sound hn).encloses⟩, fun e he => ?_, ?_,
    hf.version⟩
  · exact ((hf.sound he).self.body e rfl).1
  · exact hf.siblings_ordered.sublist f.body_sublist

theorem parse_ranges_nested_sample : ∃ f, parse {} sampleText "m.proto" = .ok f ∧
    f.version.isSome = true ∧ f.body.length = 3 ∧ f.body.Pairwise Element.Before := by
  obtain ⟨f, hf, hv, hlen, -⟩ := parse_sample
  exact ⟨f, hf, hv, hlen, (parse_ranges_nested {} sampleText "m.proto" f hf).2.2.1⟩

/-- The comments of a file are in one place of it each, and that is a slot around a declaration or an
element of its own. Siblings keep theirs apart, and none is inside a statement or a head. -/
theorem parse_comments_slotted (opts : Grammar.Options) (bytes : List UInt8) (file : String)
    (f : File) (h : parse opts bytes file = .ok f) :
    f.comments.Pairwise Comment.Distinct ∧
    f.siblings.Pairwise Element.Before ∧ f.siblings.Pairwise Element.Apart ∧
    (∀ e, f.Has (.element e) →
      e.body.Pairwise Element.Before ∧ e.Slotted (Cursor.ofBytes bytes file)) ∧
    ∀ e, f.Has (.element e) → e.Spares (Cursor.ofBytes bytes file) f.comments := by
  have hf := parse_laid h
  refine ⟨hf.distinct, hf.siblings_ordered, hf.siblings_apart, fun e he => ?_, fun e he => ?_⟩
  · exact (hf.sound he).self.body e rfl
  · exact hf.spares he

theorem parse_comments_slotted_sample : ∃ f, parse {} sampleText "m.proto" = .ok f ∧
    f.comments.length = 3 ∧ f.comments.Pairwise Comment.Distinct := by
  obtain ⟨f, hf, -, -, hlen, -⟩ := parse_sample
  exact ⟨f, hf, hlen, (parse_comments_slotted {} sampleText "m.proto" f hf).1⟩

/-- The comment behind the opening curly. -/
def Element.behindCurly? : Element → Option Comment
  | .block _ _ behindCurly _ => behindCurly
  | .comment _ | .statement _ _ | .fragment _ | .file _ _ => none

/-- A comment that leads a declaration may start before the element in front of the declaration,
where that is the comment that ends on its first line. One behind a curly may end on a later line than
that of the curly. -/
theorem leading_before_sibling :
    (∃ f, parse {} sampleText "m.proto" = .ok f ∧
      ∃ p ∈ f.body.zip f.body.tail, ∃ k ∈ (p.2.notes?.getD {}).leading,
        ¬ p.1.extent.last.offset < k.extent.start.offset) ∧
    ∃ f, parse {} (Utf8.encode "message M \x7b /* a\n b */ int32 x = 1;\n\x7d".toList) "m.proto" = .ok f ∧
      ∃ e ∈ f.body, ∃ k, e.behindCurly? = some k ∧ e.extent.start.line = k.extent.start.line ∧
        k.extent.start.line < k.extent.last.line := by
  constructor
  · obtain ⟨f, hf, -, -, -, h⟩ := parse_sample
    exact ⟨f, hf, h⟩
  · have h : (parse {} (Utf8.encode "message M \x7b /* a\n b */ int32 x = 1;\n\x7d".toList)
        "m.proto").toOption.any (fun f => f.body.any fun e => e.behindCurly?.any fun k =>
          decide (e.extent.start.line = k.extent.start.line ∧
            k.extent.start.line < k.extent.last.line)) = true := by
      decide +kernel
    obtain ⟨f, hf, h⟩ := exists_ok h
    obtain ⟨e, he, h⟩ := List.any_eq_true.1 h
    obtain ⟨k, hk, h⟩ := (Option.any_eq_true _ _).1 h
    exact ⟨f, hf, e, he, k, hk, of_decide_eq_true h⟩

end

end ProtoIdl
