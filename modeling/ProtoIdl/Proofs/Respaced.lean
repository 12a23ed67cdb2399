import ProtoIdl.Proofs.Grammar.Coupled
import ProtoIdl.Proofs.Progress
import ProtoIdl.Proofs.Token.Respaced
/-!
# White space does not matter

Where white space that was skipped is replaced by other white space, a file is read as before, at other
places (`parse_respaced`). What was skipped is told by the tokens that were handed out
(`Respacing.Skipped`): no comment stands between two of them, and white space that is not skipped is in a
literal. As long as this holds, a reader of the new text does what a reader of the old one does
(`Respacing.coupling`).
-/
namespace ProtoIdl

open Reading Grammar

namespace Cursor

/-- Tokens were handed out from `start` on, latest first, and the latest of them ends at `b`. -/
def Hands (start : Cursor) : List Token → Cursor → Prop
  | [], b => b = start
  | t :: _, b => ∃ m c, start.Reaches c ∧ Scan.token m c = .ok (t, b)

/-- A comment was met before one of the tokens that were handed out from `start` on, latest first: it
comes first behind the token in front of this one. -/
def MeetsComment (start : Cursor) : List Token → Prop
  | [] => False
  | t :: ts => start.MeetsComment ts ∨ ∃ b c, start.Hands ts b ∧ Scan.gap b = .ok (true, c) ∧
      c.position.offset ≤ t.position.offset

end Cursor

/-- What comes first behind white space is passed over in front of the next token, or it is there. -/
theorem Cursor.Leads.reaches_of_gap {b : Bool} {c a d e : Cursor} {l : Source.Lead} {ts : List Token}
    (hg : Scan.gap c = .ok (b, a)) (h : c.Leads l ts d e) : a.Reaches d := by
  have hsame {x : Bool} {y : Cursor} (hg' : Scan.gap c = .ok (x, y)) : x = b ∧ y = a :=
    Prod.mk.inj (Except.ok.inj (hg'.symm.trans hg))
  cases h with
  | clear hg' => exact (hsame hg').2 ▸ .refl _
  | unclosed hg' ht hk => exact (hsame hg').2 ▸ .refl _
  | comment hg' ht hk hl =>
    have hreach := (Scan.gap_comment hg' ht hk).2.1.reaches.trans hl.passes.reaches
    exact (hsame hg').2 ▸ hreach

theorem Cursor.Finds.offset_le {m : Mode} {c a d e : Cursor} {t : Token} {ts : List Token} {b : Bool}
    (hg : Scan.gap c = .ok (b, a)) (h : c.Finds m t ts d e) :
    a.position.offset ≤ t.position.offset := by
  have hreached : a.Reaches d := by
    cases h with
    | token hl ht => exact hl.reaches_of_gap hg
    | unclosed hl => exact hl.reaches_of_gap hg
  have hsees : d.Sees t.position := by
    cases h.found with
    | lexed hc hd ht => exact ht.sees
    | eof hc hd ht => exact ⟨d, .refl d, by rw [ht, Token.make]⟩
  obtain ⟨k, hk, hposition⟩ := hsees
  rw [← hposition]
  exact (hreached.trans hk).offset_le

/-- What was handed out stays so when it is put back. -/
theorem Reader.handedOut_putBack {r r' : Reader} (h : r.putBack = .ok r') :
    r'.stream.handedOut = r.stream.handedOut := by
  unfold putBack at h
  split at h
  · cases h
  · unfold TokenStream.unscan at h
    split at h
    · obtain rfl := Except.ok.inj h
      rfl
    · cases h

namespace Respacing

/-- The beginning of the old text. -/
def start (s : Respacing) (file : String) : Cursor := cursor Piece.old file [] s

/-- The token is a string, and a gap is in one of its literals. -/
def Cuts (s : Respacing) (file : String) (t : Token) : Prop :=
  t.kind = .stringLit ∧ ∃ m c d, (s.start file).Reaches c ∧ Scan.token m c = .ok (t, d) ∧
    s.Tears file none c d

/-- What the old text came to when these tokens were handed out, latest first: no comment was met, and
every gap was skipped, in front of a token or between two literals. -/
structure Skipped (s : Respacing) (file : String) (ts : List Token) : Prop where
  comments : ¬ (s.start file).MeetsComment ts
  gaps : ∀ t ∈ ts, ¬ s.Cuts file t

variable {s : Respacing} {file : String} {b : Bool} {m : Mode} {r r' : Reader} {t : Token}
  {ts : List Token} {d e : Cursor}

theorem Skipped.of_cons (h : s.Skipped file (t :: ts)) : s.Skipped file ts :=
  ⟨fun hmeets => h.comments (.inl hmeets), fun u hu => h.gaps u (List.mem_cons_of_mem t hu)⟩

/-- What was not skipped once is not skipped later. -/
def lost (s : Respacing) (file : String) : Invariant where
  holds r := ¬ s.Skipped file r.stream.handedOut
  fresh r := ¬ s.Skipped file r.stream.handedOut
  failure _ := True
  next _ h := fun hskipped => h hskipped.of_cons
  holds_of_fresh h := h
  putBack h hr := by rwa [Reader.handedOut_putBack hr]
  unexpected _ _ := trivial
  misuse _ _ := trivial
  outOfRounds := trivial

/-- The readers stand at the same place. It is where the last token ends, or no comment comes first. -/
structure Meets (s : Respacing) (file : String) (b : Bool) (r r' : Reader) : Prop where
  stands : r.Stands
  stands_new : r'.Stands
  reached : (s.start file).Reaches r.mark
  edge : s.Aligns file r.edge r'.edge
  mark : s.Aligns file r.mark r'.mark
  place : (s.start file).Hands r.stream.handedOut r.edge ∨ Scan.gap r.edge = .ok (false, r.edge)
  pending : r.stream.pending = []
  pending_new : r'.stream.pending = []
  token : b = true → r'.token = r.token.move (s.move file)

/-- The relation of readers of both texts. -/
def coupling (s : Respacing) (file : String) : Coupling where
  move := s.move file
  rel := s.Meets file
  lost := s.lost file
  fails _ _ := True
  loose := True

/-- The same token is read in both texts. -/
theorem Meets.matched {d' e' : Cursor} (h : s.Meets file b r r') (hgap : Scan.gap r.edge = .ok (false, d))
    (ht : Scan.token m d = .ok (t, e)) (hf : r.edge.Finds m t [] d e)
    (hf' : r'.edge.Finds m (t.move (s.move file)) [] d' e') (hd : s.Aligns file d d')
    (he : s.Aligns file e e') : (s.coupling file).Matched b (r.after t [] d e)
      (r'.after (t.move (s.move file)) [] d' e') := by
  have hpending : r.stream.pending ++ [] = [] := by rw [h.pending, List.append_nil]
  have hpending' : r'.stream.pending ++ [] = [] := by rw [h.pending_new, List.append_nil]
  have hreached : (s.start file).Reaches d :=
    (h.reached.trans h.stands.reached).trans hf.passes.reaches
  refine ⟨rfl, fun _ => ?_, ?_⟩
  · exact ⟨h.stands.after hf.passes.reaches hf.found.reaches,
      h.stands_new.after hf'.passes.reaches hf'.found.reaches, hreached, he, hd,
      .inl ⟨m, d, hreached, ht⟩, hpending, hpending', fun _ => rfl⟩
  · exact ⟨_, _, Reader.putBack_after, Reader.putBack_after, h.stands.looked hf.passes.reaches,
      h.stands_new.looked hf'.passes.reaches, hreached, hd, hd,
      .inr (Scan.gap_again hgap h.stands.edge_whole), hpending, hpending', h.token⟩

/-- The old reader meets a comment or a gap in a literal; or both read the same token; or the old one
reads what would be a string. -/
theorem Meets.next_cases (h : s.Meets file b r r') (hm : m.comments = false) :
    ¬ s.Skipped file (r.next m).stream.handedOut ∨
      (s.coupling file).Matched b (r.next m) (r'.next m) ∨
      m.strings = true ∧ (∃ x more, (r.next m).mark.rest = x :: more ∧ Scan.isQuote x = true) ∧
        (r.next m).token.kind = .illegal := by
  obtain ⟨t, ts, d, e, hf, hr⟩ := h.stands.next_finds hm
  obtain ⟨x, a, hgap, -, -⟩ :=
    (Scan.gap_ends r.edge).exists_ok fun _ => Cursor.not_faulty h.stands.edge_whole
  rw [hr]
  cases x with
  | true =>
    rcases h.place with hplace | hplace
    · refine .inl fun hskipped => hskipped.comments (.inr ⟨r.edge, a, hplace, hgap, ?_⟩)
      exact hf.offset_le hgap
    · rw [hplace] at hgap
      cases hgap
  | false =>
    obtain ⟨rfl, d', hgap', hd, hread⟩ := h.edge.finds hgap hf
    obtain ⟨-, rfl, ht⟩ := hf.of_clear hgap
    rcases hread with ⟨e', hf', he⟩ | ⟨hs, hquote, hk | ⟨hk, htears⟩⟩
    · rw [Reader.next_of_finds hm hf' h.stands_new.edge_rounds]
      exact .inr (.inl (h.matched hgap ht hf hf' hd he))
    · obtain ⟨x, hx, hquote⟩ := Option.any_eq_true _ _ |>.1 hquote
      obtain ⟨more, hrest⟩ := List.head?_eq_some_iff.1 hx
      exact .inr (.inr ⟨hs, ⟨x, more, hrest, hquote⟩, hk⟩)
    · refine .inl fun hskipped => hskipped.gaps t List.mem_cons_self ?_
      exact ⟨hk, m, d, e, (h.reached.trans h.stands.reached).trans hf.passes.reaches, ht, htears⟩

theorem lawful (s : Respacing) (file : String) : (s.coupling file).Lawful where
  offset_lt _ _ hl := absurd trivial hl
  line_lt _ _ hl := absurd trivial hl
  relax h := { h with token := nofun }
  stands h := h.stands
  rounds _ := .inl trivial
  token h := h.token rfl
  pending h := by rw [h.pending, h.pending_new]; rfl
  bare _ h := h.pending
  setPending ts hts h := by
    obtain rfl := hts trivial
    exact ⟨h.stands.setQueue [], h.stands_new.setQueue [], h.reached, h.edge, h.mark, h.place, rfl, rfl,
      h.token⟩
  next hm h hq := by
    rcases h.next_cases hm with hlost | hmatched | ⟨hs, -, hk⟩
    · exact .inl hlost
    · exact .inr hmatched
    · rcases hq with hq | ⟨hi, -⟩
      · exact absurd hs (by rw [(Mode.isQuiet_iff.1 hq).1]; nofun)
      · exact absurd hk hi
  string hm h hk := by
    rcases h.next_cases hm with hlost | hmatched | ⟨-, -, hi⟩
    · exact .inl hlost
    · exact .inr (hmatched.keep (hk ▸ nofun))
    · exact absurd (hk.symm.trans hi) nofun
  refused _ _ _ := trivial
  outOfRounds _ := trivial
  loose_fails _ _ _ := trivial
  queueless _ _ h := h
  lost_unexpected _ _ := trivial
  lost_fails _ _ := trivial

theorem follows (s : Respacing) (file : String) : (s.coupling file).Follows where
  toLawful := s.lawful file
  reserved {r r'} hr _ := by
    have hP := s.lawful file
    rcases hr.next_cases (m := .string) rfl with hlost | hmatched | ⟨-, ⟨x, more, hd, hx⟩, hk⟩
    · have hpeek : Sat (peek .string) r (fun _ r' => (s.lost file).holds r') (s.lost file).failure :=
        sat_run_bind (run_next .string r) (heeds_putBack_bind (fun _ => keeps_pure _) _ hlost)
      exact outcome_of_sat hP (hpeek.bind fun k r hr => (couples_reservedAs hP k).1 r hr)
    · obtain ⟨q, q', hback, hback', hqq⟩ := hmatched.putBack
      rw [reservedItem, run_bind (run_peek hback), run_bind (run_peek hback'),
        hmatched.token, Token.kind_move]
      exact (couples_reservedAs hP _).2 q q' hqq
    · -- a string that is malformed is refused because it is no range
      obtain ⟨t, ts, d, e, hf, hnext⟩ := hr.stands.next_finds (m := .string) rfl
      rw [hnext] at hd hk
      have hback : (r.next .string).putBack = .ok (r.looked t ts d) :=
        hnext ▸ Reader.putBack_after
      rw [reservedItem, run_bind (run_peek hback), hnext, reservedAs, if_neg (by rw [hk]; nofun),
        run_bind_error (run_ranges_quote hr.stands hf hd hx)]
      exact trivial

/-- Both readers stand at the beginning. -/
theorem meets_ofBytes (s : Respacing) (file : String) :
    s.Meets file false (.ofBytes (Utf8.encode s.old) file)
      (.ofBytes (Utf8.encode s.new) file) := by
  have hold : Cursor.ofBytes (Utf8.encode s.old) file = s.start file :=
    Cursor.ofBytes_encode s.old file
  have hnew : Cursor.ofBytes (Utf8.encode s.new) file = cursor Piece.new file [] s :=
    Cursor.ofBytes_encode s.new file
  have haligns : s.Aligns file (.ofBytes (Utf8.encode s.old) file)
      (.ofBytes (Utf8.encode s.new) file) := ⟨[], s, rfl, hold, hnew⟩
  exact ⟨Reader.stands_ofBytes file (by rw [Utf8.decode_encode]),
    Reader.stands_ofBytes file (by rw [Utf8.decode_encode]), hold ▸ .refl _, haligns, haligns,
    .inl hold, rfl, rfl, nofun⟩

/-- A file that is read is read in the new text too, if there are rounds enough. -/
theorem Meets.file_ok {opts : Options} {f : File} {q : Reader} (h : s.Meets file false r r')
    (hr : Grammar.file opts r = .ok f q) (hs : s.Skipped file q.stream.handedOut) :
    (∃ q', Grammar.file opts r' = .ok (f.move (s.move file)) q') ∨
      ∃ q', Grammar.file opts r' = .error .outOfRounds q' := by
  have hout := (couples_file (s.follows file) opts).2 r r' h
  rw [hr] at hout
  rcases hout with hlost | ⟨q', hnew, -⟩ | ⟨-, hnew⟩
  · exact absurd hs hlost
  · exact .inl ⟨q', hnew⟩
  · exact .inr hnew

end Respacing

theorem parseWith_ok {opts : Options} {bytes : List UInt8} {file : String} {f : File} {r : Reader}
    (h : parseWith opts bytes file = (.ok f, r)) :
    Grammar.file opts (.ofBytes bytes file) = .ok f r := by
  unfold parseWith Reading.outcome at h
  split at h
  · next hfile =>
    cases h
    exact hfile
  · cases h

/-- White space that was skipped may be replaced by other white space: then a file is read as before,
with all its places moved. -/
theorem parse_respaced (opts : Grammar.Options) (file : String) (s : Respacing) (f : File) (r : Reader)
    (h : parseWith opts (Utf8.encode s.old) file = (.ok f, r))
    (hs : s.Skipped file r.stream.handedOut) :
    parse opts (Utf8.encode s.new) file = .ok (f.move (s.move file)) := by
  rcases (s.meets_ofBytes file).file_ok (parseWith_ok h) hs with ⟨q, hnew⟩ | ⟨q, hnew⟩
  · rw [parse, parseWith, Reading.outcome, hnew]
  · -- no text runs out of rounds
    have hout : parse opts (Utf8.encode s.new) file = .error .outOfRounds := by
      rw [parse, parseWith, Reading.outcome, hnew]
    exact absurd hout (parse_ne_outOfRounds opts s.new file)

/-! ## Telling what is skipped -/

namespace Respacing

variable {s : Respacing} {file : String} {ts : List Token} {b : Cursor}

theorem reaches_of_hands (h : (s.start file).Hands ts b) : (s.start file).Reaches b := by
  cases ts with
  | nil => exact h ▸ .refl _
  | cons t ts =>
    obtain ⟨m, c, hc, ht⟩ := h
    exact hc.trans ((Scan.token_found m c).ok ht).reaches

/-- No comment is met in a text without slashes. -/
theorem not_meetsComment (h : '/' ∉ s.old) : ¬ (s.start file).MeetsComment ts := by
  induction ts with
  | nil => exact id
  | cons t ts ih =>
    rintro (hmeets | ⟨b, c, hb, hg, -⟩)
    · exact ih hmeets
    · obtain ⟨hc, hopen⟩ := (Scan.gap_ends b).ok hg
      obtain ⟨x, more, hrest, -⟩ := hopen.1 rfl
      have hsuffix := ((reaches_of_hands hb).trans ⟨_, hc⟩).suffix
      exact h (hsuffix.subset (by rw [hrest]; exact List.mem_cons_self))

/-- Quotes that are read from the start of a string on leave no literal open in front of a gap. -/
theorem not_cuts {t : Token} (h : ∀ k ∈ s.gaps, ∀ i ≤ k,
    ((s.start file).advance i).position = t.position →
      Scan.quoted none ((s.old.drop i).take (k - i)) = none) : ¬ s.Cuts file t := by
  rintro ⟨hk, m, c, d, ⟨i, rfl⟩, ht, p, a, b, q, n, hs, hgap, hquoted, -⟩
  have hposition : t.position = ((s.start file).advance i).position :=
    ((Scan.token_found m _).ok ht).position_eq (hk ▸ nofun)
  have hlen : (s.old.drop (i + n)).length = (old (.gap a b :: q)).length := by
    rw [← List.drop_drop]
    exact congrArg (fun c => c.rest.length) hgap
  have hpos : 0 < (old (.gap a b :: q)).length := by
    rw [old_cons, List.length_append]
    exact Nat.add_pos_left (List.length_pos_iff.2 a.ne_nil) _
  have hin : (old p).length = i + n := by
    have hsum : s.old.length = (old p).length + (old (.gap a b :: q)).length := by
      rw [hs, old_append, List.length_append]
    rw [List.length_drop] at hlen
    omega
  have hgaps : i + n ∈ s.gaps := by
    rw [← hin, hs]
    exact mem_gaps
  have hnone := h _ hgaps i (Nat.le_add_right i n) hposition.symm
  rw [Nat.add_sub_cancel_left] at hnone
  have hread : Scan.quoted none ((s.old.drop i).take n) ≠ none := Option.isSome_iff_ne_none.1 hquoted
  exact hread hnone

end Respacing

/-- White space of another kind. -/
def sampleGap : Piece :=
  .gap ⟨[' '], List.cons_ne_nil _ _, by simp [Scan.isBlank]⟩
    ⟨['\n', '\t'], List.cons_ne_nil _ _, by simp [Scan.isBlank]⟩

/-- A version with white space in its quotes, and an import whose name is in two literals. -/
def respacedSample : Respacing :=
  "syntax = \"".toList.map .char ++ [sampleGap] ++ "proto3".toList.map .char ++ [sampleGap] ++
    "\";import \"a b\"".toList.map .char ++ [sampleGap] ++ "\"c\";".toList.map .char ++ [sampleGap]

theorem parse_respaced_sample : ∃ f r,
    parseWith {} (Utf8.encode respacedSample.old) "" = (.ok f, r) ∧
      respacedSample.Skipped "" r.stream.handedOut ∧ respacedSample.gaps.length = 4 ∧
      parse {} (Utf8.encode respacedSample.new) "" = .ok (f.move (respacedSample.move "")) := by
  have hok : (parseWith {} (Utf8.encode respacedSample.old) "").1.toOption.isSome = true := by
    decide +kernel
  have hcuts : ∀ t ∈ (parseWith {} (Utf8.encode respacedSample.old) "").2.stream.handedOut,
      t.kind = .stringLit → ∀ k ∈ respacedSample.gaps, ∀ i ≤ k,
        ((respacedSample.start "").advance i).position = t.position →
          Scan.quoted none ((respacedSample.old.drop i).take (k - i)) = none := by
    decide +kernel
  have hslash : '/' ∉ respacedSample.old := by decide +kernel
  have hgaps : respacedSample.gaps.length = 4 := by decide +kernel
  generalize hrun : parseWith {} (Utf8.encode respacedSample.old) "" = run at hok hcuts
  obtain ⟨res, r⟩ := run
  cases res with
  | error e => cases hok
  | ok f =>
    have hskipped : respacedSample.Skipped "" r.stream.handedOut :=
      ⟨Respacing.not_meetsComment hslash, fun t ht hcut =>
        Respacing.not_cuts (hcuts t ht hcut.1) hcut⟩
    exact ⟨f, r, rfl, hskipped, hgaps, parse_respaced {} "" respacedSample f r hrun hskipped⟩

end ProtoIdl
