import ProtoIdl.Proofs.Grammar.Peeked
import ProtoIdl.Proofs.Token.Faulted
/-!
# Ill-formed octets behind a file

What happens if octets that are not UTF-8 stand behind a text that is read. Scanning runs into them when
it looks for what follows the last declaration. If a comment stands there, or there is no declaration, the
error is reported where the octets are. Otherwise the token that was looked for is put back to a mark in
front of the last token read: that one, which ends the last declaration, is then read again
(`parse_ill_formed`).
-/
namespace ProtoIdl

open Reading Grammar

namespace Reader

/-- The reader stands where scanning runs into the error `e`, and does so again when it is put back. -/
structure Sunk (e : LexicalError) (r : Reader) : Prop where
  sinks : ∃ o, r.edge.Sinks e o ∧ o.getD r.edge = r.edge
  mark : r.mark = r.edge
  rounds : r.edge.rest.length < r.stream.rounds

/-- Looking at the next token takes the reader back to `c`. -/
structure Returns (c : Cursor) (r : Reader) : Prop where
  edge : (r.peeked .plain).edge = c
  rounds : c.rest.length < r.stream.rounds

variable {e : LexicalError} {o : Option Cursor} {m : Mode} {r : Reader} {c d : Cursor}

/-- The next token is the error that scanning runs into. -/
theorem next_of_sinks (hm : m.comments = false) (h : r.edge.Sinks e o)
    (hr : r.edge.rest.length < r.stream.rounds) :
    (r.next m).token = .ofError e ∧ (r.next m).mark = o.getD r.mark := by
  obtain ⟨s, hscan, hmarked⟩ := TokenStream.scan_of_sinks hm h hr
  rw [next, hscan]
  exact ⟨rfl, hmarked⟩

theorem Sunk.token_eq (h : r.Sunk e) (hm : m.comments = false) : (r.next m).token = .ofError e := by
  obtain ⟨o, ho, -⟩ := h.sinks
  exact (next_of_sinks hm ho h.rounds).1

theorem Sunk.peeked (h : r.Sunk e) (hm : m.comments = false) : (r.peeked m).Sunk e := by
  obtain ⟨o, ho, hself⟩ := h.sinks
  have hmark : (r.next m).mark = r.edge := by
    rw [(next_of_sinks hm ho h.rounds).2, h.mark, hself]
  refine ⟨?_, rfl, ?_⟩
  · rw [edge_peeked, hmark]
    exact ⟨o, ho, hself⟩
  · rw [edge_peeked, hmark, rounds_peeked]
    exact h.rounds

/-- A reader that comes to a comment on the way returns there. -/
theorem sunk_peeked (hm : m.comments = false) (h : r.edge.Sinks e (some c))
    (hr : r.edge.rest.length < r.stream.rounds) : (r.peeked m).Sunk e := by
  have hmark : (r.next m).mark = c := (next_of_sinks hm h hr).2
  refine ⟨?_, rfl, ?_⟩
  · rw [edge_peeked, hmark]
    exact ⟨some c, h.again rfl, rfl⟩
  · rw [edge_peeked, hmark, rounds_peeked]
    exact Nat.lt_of_le_of_lt (h.opens rfl).2.length_le hr

/-- A reader that starts here returns here at least. -/
theorem sunk_start (h : r.edge.Sinks e o) (hmark : r.mark = r.edge)
    (hr : r.edge.rest.length < r.stream.rounds) : (r.peeked .plain).Sunk e := by
  cases o with
  | none => exact Sunk.peeked ⟨⟨none, h, rfl⟩, hmark, hr⟩ rfl
  | some c => exact sunk_peeked rfl h hr

theorem Sunk.setQueue (h : r.Sunk e) (ts : List Token) : (r.setQueue ts).Sunk e :=
  ⟨h.sinks, h.mark, h.rounds⟩

end Reader

namespace Grammar

variable {opts : Options} {e : LexicalError} {r : Reader} {c : Cursor} {f : File} {x : Char}
  {more : List Char}

/-- A reader in front of the next declaration, whose comments were claimed. -/
def ahead (r : Reader) : Reader := (r.peeked .plain).setQueue []

/-- Where no declaration can start, the token there is refused. -/
theorem fileHead_refuses (opts : Options) (first : Bool)
    (hk : ((ahead r).next .keyword).token.kind = .illegal ∨
      ((ahead r).next .keyword).token.kind = .delimiter .rightBrace) :
    fileHead opts first r = .error
      ((((ahead r).peeked .keyword).next .keyword).unexpected Scope.file.expected)
      (((ahead r).peeked .keyword).next .keyword) := by
  rw [fileHead, run_bind (run_peeked .plain r), fileNext, run_bind (run_pending _),
    run_bind (run_setPending [] _), run_bind (run_peeked .keyword _)]
  rcases hk with hk | hk <;>
    · rw [← ahead, hk]
      exact run_bind (run_next .keyword _)

/-- The error is reported. -/
theorem fileHead_sunk (opts : Options) (first : Bool) (h : (r.peeked .plain).Sunk e) :
    ∃ r', fileHead opts first r = .error (.lexical e) r' := by
  have hq : (ahead r).Sunk e := h.setQueue []
  have ht := (hq.peeked (m := .keyword) rfl).token_eq (m := .keyword) rfl
  have hk : ((ahead r).next .keyword).token.kind = .illegal := by
    rw [hq.token_eq (m := .keyword) rfl]
    rfl
  refine ⟨((ahead r).peeked .keyword).next .keyword, ?_⟩
  rw [fileHead_refuses opts first (.inl hk), Reader.unexpected, ht]
  rfl

/-- A stop at `c` that reading returns to is read again. -/
theorem next_returned {m : Mode} (hm : m.comments = false) (hedge : r.edge = c)
    (hr : c.rest.length < r.stream.rounds) (hc : c.rest = x :: more) (hx : Seam.isStop x = true) :
    r.next m = r.after (Scan.single x c.position) [] c (c.advance 1) := by
  refine Reader.next_of_finds hm ?_ (hedge ▸ hr)
  rw [hedge]
  exact .token (.clear (Scan.gap_at_stop hc hx)) (Scan.token_stop m hc hx)

/-- A reader that returns to a stop has it in front of it, whatever it looks at. -/
theorem next_ahead (h : r.Returns c) (hc : c.rest = x :: more) (hx : Seam.isStop x = true) :
    (ahead r).next .keyword =
        (ahead r).after (Scan.single x c.position) [] c (c.advance 1) ∧
      ∀ m : Mode, m.comments = false → ((ahead r).peeked .keyword).next m =
        ((ahead r).peeked .keyword).after (Scan.single x c.position) [] c (c.advance 1) := by
  have hedge : (ahead r).edge = c := h.edge
  have hrounds : c.rest.length < (ahead r).stream.rounds := by
    rw [ahead, Reader.rounds_setQueue, Reader.rounds_peeked]
    exact h.rounds
  have hnext := next_returned (m := .keyword) rfl hedge hrounds hc hx
  refine ⟨hnext, fun m hm => next_returned hm ?_ ?_ hc hx⟩
  · rw [Reader.edge_peeked, hnext, Reader.mark_after]
  · rwa [Reader.rounds_peeked]

/-- A closing curly that is read again is refused: it closes nothing. -/
theorem fileHead_returned (opts : Options) (first : Bool) (h : r.Returns c)
    (hc : c.rest = '}' :: more) : ∃ r',
    fileHead opts first r = .error (.unexpected "\x7d" Scope.file.expected c.position) r' := by
  obtain ⟨hahead, hpeeked⟩ := next_ahead h hc rfl
  have hk : ((ahead r).next .keyword).token.kind = .delimiter .rightBrace := by
    rw [hahead]
    rfl
  refine ⟨((ahead r).peeked .keyword).next .keyword, ?_⟩
  rw [fileHead_refuses opts first (.inr hk), hpeeked .keyword rfl]
  rfl

/-- A semicolon that is read again is an empty statement, and is put back to once more. -/
theorem fileRound_returned (opts : Options) (h : r.Returns c) (hc : c.rest = ';' :: more)
    (hs : (c.advance 1).Sinks e none) (f : File) :
    ∃ r', fileRound opts f r = .ok (.again f) r' ∧ r'.Returns c := by
  obtain ⟨hahead, hpeeked⟩ := next_ahead h hc rfl
  have hnext := hpeeked .plain rfl
  have hrounds : c.rest.length < (((ahead r).peeked .keyword).next .plain).stream.rounds := by
    rw [Reader.rounds_next, Reader.rounds_peeked, ahead, Reader.rounds_setQueue,
      Reader.rounds_peeked]
    exact h.rounds
  refine ⟨((ahead r).peeked .keyword).next .plain, ?_, ?_, hrounds⟩
  · rw [fileRound_eq, fileHead, bind_assoc, run_bind (run_peeked .plain r), fileNext, bind_assoc,
      run_bind (run_pending _), bind_assoc, run_bind (run_setPending [] _), bind_assoc,
      run_bind (run_peeked .keyword _), ← ahead, hahead]
    rfl
  · rw [hnext] at hrounds ⊢
    rw [Reader.edge_peeked, (Reader.next_of_sinks rfl hs ?_).2]
    · rfl
    · refine Nat.lt_of_le_of_lt ?_ hrounds
      exact (c.reaches_advance 1).length_le

/-- So it is read again and again. -/
theorem repeatAtMost_returned (h : r.Returns c) (hc : c.rest = ';' :: more)
    (hs : (c.advance 1).Sinks e none) (n : Nat) (f : File) :
    ∃ r', repeatAtMost (fileRound opts) n f r = .error .outOfRounds r' := by
  induction n generalizing r with
  | zero => exact ⟨r, rfl⟩
  | succ n ih =>
    obtain ⟨r₁, hround, hr₁⟩ := fileRound_returned opts h hc hs f
    obtain ⟨r', hr'⟩ := ih hr₁
    exact ⟨r', (run_bind hround).trans hr'⟩

/-- Behind a declaration that a comment follows, looking further runs into the error for good. -/
theorem fileTail_sunk {l : Landing} {r' : Reader} {f' : File} (hs : r.edge.Sinks e (some c))
    (hr : r.edge.rest.length < r.stream.rounds) (hl : ∀ comments, l ≠ .ended comments)
    (htail : fileTail f l r = .ok (.again f') r') : (r'.peeked .plain).Sunk e := by
  obtain ⟨f₁, r₁, htail₁, hrounds, hmoves⟩ := fileTail_moves hl f r
  rw [htail] at htail₁
  obtain ⟨-, rfl⟩ := EStateM.Result.ok.inj htail₁
  rcases hmoves with rfl | ⟨hedge, -⟩
  · exact Reader.sunk_peeked rfl hs hr
  have hmark : (r.next .plain).mark = c := (Reader.next_of_sinks rfl hs hr).2
  rw [hmark] at hedge
  have hlt : c.rest.length < r.stream.rounds := Nat.lt_of_le_of_lt (hs.opens rfl).2.length_le hr
  refine Reader.sunk_peeked (c := c) rfl ?_ ?_
  · rw [hedge]
    exact hs.again rfl
  · rw [hedge, hrounds]
    exact hlt

/-- Behind a declaration that no comment follows, reading returns to the stop that ends it. -/
theorem fileTail_returns {l : Landing} {r' : Reader} {f' : File} (hs : (r.mark.advance 1).Sinks e none)
    (hedge : r.edge = r.mark.advance 1) (hr : r.mark.rest.length < r.stream.rounds)
    (hc : r.mark.rest = x :: more) (hx : Seam.isStop x = true)
    (hl : ∀ comments, l ≠ .ended comments) (htail : fileTail f l r = .ok (.again f') r') :
    r'.Returns r.mark := by
  obtain ⟨f₁, r₁, htail₁, hrounds, hmoves⟩ := fileTail_moves hl f r
  rw [htail] at htail₁
  obtain ⟨-, rfl⟩ := EStateM.Result.ok.inj htail₁
  have hlt : r.edge.rest.length < r.stream.rounds := by
    rw [hedge]
    exact Nat.lt_of_le_of_lt (r.mark.reaches_advance 1).length_le hr
  have hmark : (r.next .plain).mark = r.mark := (Reader.next_of_sinks rfl (hedge ▸ hs) hlt).2
  rcases hmoves with rfl | ⟨hedge', -⟩
  · exact ⟨hmark, hr⟩
  rw [hmark] at hedge'
  refine ⟨?_, hrounds ▸ hr⟩
  rw [Reader.edge_peeked, next_returned rfl hedge' (hrounds ▸ hr) hc hx]
  rfl

end Grammar

open Grammar

variable {opts : Options} {bytes bytes' : List UInt8} {chars : List Char} {fault : Utf8.Fault}
  {file : String} {f : File}

/-- The error of the octets behind a text. -/
def LexicalError.behind (chars : List Char) (fault : Utf8.Fault) (file : String) : LexicalError :=
  ⟨.illFormed fault, (Position.first file).after chars⟩

/-- It is at the first of these octets. -/
theorem LexicalError.offset_behind (chars : List Char) (fault : Utf8.Fault) (file : String) :
    (behind chars fault file).position.offset = (Utf8.encode chars).length := by
  rw [behind, Position.offset_after]
  exact Int.zero_add _

/-- Where the end of the text would come next, scanning runs into the octets behind it. -/
theorem Cursor.Leads.sinks_behind {c d : Cursor} {ts : List Token}
    (hc : (Cursor.ofBytes (Utf8.encode chars) file).Reaches c) (h : c.Leads .clear ts d d)
    (hd : d.rest = []) (fault : Utf8.Fault) :
    ∃ o, (c.faulted fault).Sinks (.behind chars fault file) o ∧
      (o = none → ∀ x ∈ c.rest, Scan.isBlank x = true) := by
  have hwhole : c.ending = none := by rw [hc.ending_eq, Cursor.ofBytes_encode]
  have hsinks := h.sinks rfl hwhole hd fault
  rwa [hc.position_atEnd] at hsinks

/-- Reading gets to the round in which it fails. -/
theorem parse_error_of_turned {k : Nat} {e : Failure} {g : File} {q : Reader}
    (hk : k < (Reader.ofBytes bytes file).rounds)
    (ht : Turned (fileRound opts) k {} (.ofBytes bytes file) g q)
    (h : ∀ n, ∃ r', repeatAtMost (fileRound opts) (n + 1) g q = .error e r') :
    parse opts bytes file = .error e := by
  obtain ⟨n, hn⟩ : ∃ n, (Reader.ofBytes bytes file).rounds = k + (n + 1) :=
    ⟨(Reader.ofBytes bytes file).rounds - k - 1, by omega⟩
  obtain ⟨r', hr'⟩ := h n
  have hfile : Grammar.file opts (.ofBytes bytes file) = .error e r' := by
    rw [Grammar.file, repeatFrom, run_bind (run_get _), hn, ht.repeatAtMost_eq, hr']
  rw [parse, parseWith]
  unfold Reading.outcome
  rw [hfile]

/-- In a text without declarations the error is reported where the octets are. -/
theorem parse_bare {comments : List Comment} {r : Reader}
    (h : Utf8.decode bytes = (chars, some fault))
    (hhead : fileHead opts true (.ofBytes (Utf8.encode chars) file) = .ok (.ended comments) r) :
    parse opts bytes file = .error (.lexical (.behind chars fault file)) := by
  have hwhole : (Utf8.decode (Utf8.encode chars)).2 = none := by rw [Utf8.decode_encode]
  obtain ⟨ts, d, hlead, hd⟩ := fileHead_ended (Reader.stands_ofBytes file hwhole) hhead
  obtain ⟨o, ho, -⟩ := hlead.sinks_behind (.refl _) hd fault
  have hedge : (Reader.ofBytes bytes file).edge =
      (Cursor.ofBytes (Utf8.encode chars) file).faulted fault := by
    simp [Reader.edge_ofBytes, Cursor.ofBytes, Cursor.faulted, h]
  have hsunk : ((Reader.ofBytes bytes file).peeked .plain).Sunk (.behind chars fault file) :=
    Reader.sunk_start (hedge ▸ ho) rfl (Nat.lt_succ_self _)
  refine parse_error_of_turned (Nat.succ_pos _) (.refl _ _) fun n => ?_
  obtain ⟨r', hr'⟩ := fileHead_sunk opts true hsunk
  exact ⟨r', by rw [repeatAtMost, fileRound_eq]; exact run_bind_error (run_bind_error hr')⟩

/-- The other side of the seam, if ill-formed octets are all that follows. -/
theorem Reader.Landed.seam_right {e : Cursor} {r : Reader} (h : r.Landed e) (fault : Utf8.Fault)
    (c : Cursor) : (h.seam [] (some fault)).right c = c.faulted fault := by
  rw [Seam.right, Seam.move_id rfl rfl]
  simp [Reader.Landed.seam, Cursor.faulted]

theorem Reader.rounds_of_decode (file : String) {o : Option Utf8.Fault}
    (h : Utf8.decode bytes = (chars, o)) : (Reader.ofBytes bytes file).rounds = chars.length + 5 := by
  change (Cursor.ofBytes bytes file).rest.length + 1 + 4 = _
  rw [Cursor.ofBytes, h]

/-- The loop fails in the round whose beginning fails. -/
theorem repeatAtMost_error {g : File} {q r' : Reader} {e : Failure}
    (h : fileHead opts (isFresh g) q = .error e r') (n : Nat) :
    repeatAtMost (fileRound opts) (n + 1) g q = .error e r' := by
  rw [repeatAtMost, fileRound_eq]
  exact run_bind_error (run_bind_error h)

/-- With ill-formed octets behind the text a reader lands behind the last declaration as well, and what
fails from there on is the failure of the whole. -/
theorem Reading.Turned.faulted {k : Nat} {g : File} {l : Landing} {r r₁ : Reader}
    (ht : Turned (fileRound opts) k {} (.ofBytes (Utf8.encode chars) file) g r)
    (hk : k + 1 < (Reader.ofBytes (Utf8.encode chars) file).rounds)
    (hhead : fileHead opts (isFresh g) r = .ok l r₁)
    (hl : r₁.Landed (Reader.ofBytes (Utf8.encode chars) file).edge)
    (h : Utf8.decode bytes = (chars, some fault)) : ∃ p,
      p.mark = r₁.mark.faulted fault ∧ p.edge = p.mark.advance 1 ∧
        p.mark.rest.length < p.stream.rounds ∧
        ∀ g' q e, fileTail g l p = .ok (.again g') q →
          (∀ n, ∃ r', repeatAtMost (fileRound opts) (n + 1) g' q = .error e r') →
            parse opts bytes file = .error e := by
  have hplain := Utf8.decode_encode chars
  obtain ⟨p, p₁, hp, hheadp, hmeets⟩ := ht.across hhead hl [] (some fault) hplain
    (by rw [h, List.append_nil])
  have hedge : p₁.edge = r₁.edge.faulted fault := hmeets.edge.trans (hl.seam_right fault _)
  have hmark : p₁.mark = r₁.mark.faulted fault := hmeets.mark.trans (hl.seam_right fault _)
  rw [Reader.rounds_of_decode file hplain, ← Reader.rounds_of_decode file h] at hk
  refine ⟨p₁, hmark, ?_, ?_, fun g' q e htail herror => ?_⟩
  · rw [hedge, hmark, hl.edge]
    rfl
  · rw [hmark]
    exact hmeets.margin
  · refine parse_error_of_turned hk (hp.snoc ?_) herror
    rw [fileRound_eq]
    exact (run_bind hheadp).trans htail

/-- Ill-formed octets behind a text that is read. The error is reported where they are, unless only
white space is between them and the last declaration: then the closing curly of the declaration is
reported in their stead, or its semicolon is read over and over. -/
theorem parse_ill_formed (opts : Options) (bytes : List UInt8) (chars : List Char)
    (fault : Utf8.Fault) (file : String) (f : File) (h : Utf8.decode bytes = (chars, some fault))
    (hf : parse opts (Utf8.encode chars) file = .ok f) :
    (LexicalError.behind chars fault file).position.offset = (Utf8.encode chars).length ∧
    (parse opts bytes file = .error (.lexical (.behind chars fault file)) ∨
      ∃ before blanks, (∀ x ∈ blanks, Scan.isBlank x = true) ∧
        (chars = before ++ '}' :: blanks ∧ parse opts bytes file = .error
            (.unexpected "\x7d" Scope.file.expected ((Position.first file).after before)) ∨
          chars = before ++ ';' :: blanks ∧ parse opts bytes file = .error .outOfRounds)) := by
  refine ⟨LexicalError.offset_behind chars fault file, ?_⟩
  have hwhole : (Utf8.decode (Utf8.encode chars)).2 = none := by rw [Utf8.decode_encode]
  cases parse_readTo hwhole hf with
  | bare hhead hf => exact .inl (parse_bare h hhead)
  | @landed k g g' l comments r r₁ q q₁ hk ht hr hhead hl hlanded htail hend hf =>
    obtain ⟨p, hmark, hedge, hrounds, hfails⟩ := ht.faulted hk hhead hlanded h
    obtain ⟨g₁, q₂, htailp, -, -⟩ := fileTail_moves hl g p
    -- behind the last declaration only white space and comments are left
    obtain ⟨ts, d, hlead, hd⟩ := fileTail_ended hlanded.toStands hl htail hend
    have hreached : (Cursor.ofBytes (Utf8.encode chars) file).Reaches r₁.mark :=
      Reader.edge_ofBytes (Utf8.encode chars) file ▸ hlanded.mark_reached
    obtain ⟨o, ho, hblank⟩ := hlead.sinks_behind (hreached.trans hlanded.reached) hd fault
    have hs : p.edge.Sinks (.behind chars fault file) o := by
      rw [hlanded.edge] at ho
      rw [hedge, hmark]
      exact ho
    cases o with
    | some c =>
      have hlt : p.edge.rest.length < p.stream.rounds := by
        rw [hedge]
        exact Nat.lt_of_le_of_lt (p.mark.reaches_advance 1).length_le hrounds
      have hsunk := fileTail_sunk hs hlt hl htailp
      obtain ⟨r', hr'⟩ := fileHead_sunk opts (isFresh g₁) hsunk
      exact .inl (hfails _ _ _ htailp fun n => ⟨r', repeatAtMost_error hr' n⟩)
    | none =>
      obtain ⟨x, blanks, hx, hstop⟩ := hlanded.stop
      obtain ⟨before, hchars, hplace⟩ := hreached.split
      have hrest : p.mark.rest = x :: blanks := hmark ▸ hx
      have hreturns : q₂.Returns p.mark :=
        fileTail_returns (hedge ▸ hs) hedge hrounds hrest hstop hl htailp
      have hblanks : r₁.edge.rest = blanks := by rw [hlanded.edge, Cursor.rest_advance, hx]; rfl
      rw [hx] at hchars
      refine .inr ⟨before, blanks, hblanks ▸ hblank rfl, ?_⟩
      simp only [Seam.isStop, Bool.or_eq_true, beq_iff_eq] at hstop
      rcases hstop with rfl | rfl
      · refine .inr ⟨hchars, hfails _ _ _ htailp fun n => ?_⟩
        exact repeatAtMost_returned hreturns hrest (hedge ▸ hs) _ _
      · refine .inl ⟨hchars, hfails _ _ _ htailp fun n => ?_⟩
        obtain ⟨r', hr'⟩ := fileHead_returned opts (isFresh g₁) hreturns hrest
        refine ⟨r', repeatAtMost_error ?_ n⟩
        rw [hr', hmark, ← hplace]
        rfl

/-- Behind a comment the error is reported where the octets are. -/
theorem parse_ill_formed_sample : ∃ bytes f,
    Utf8.decode bytes = ("// a".toList, some .invalidStart) ∧
      parse {} (Utf8.encode "// a".toList) "" = .ok f ∧
        parse {} bytes "" = .error (.lexical (.behind "// a".toList .invalidStart "")) := by
  let bytes := Utf8.encode "// a".toList ++ [0xFF]
  have hbytes : Utf8.decode bytes = ("// a".toList, some .invalidStart) := by decide +kernel
  have hok : (parse {} (Utf8.encode "// a".toList) "").toOption.isSome = true := by decide +kernel
  cases hf : parse {} (Utf8.encode "// a".toList) "" with
  | ok f =>
    refine ⟨bytes, f, hbytes, rfl, ?_⟩
    have hends := (parse_ill_formed {} bytes "// a".toList .invalidStart "" f hbytes hf).2
    refine hends.resolve_right ?_
    rintro ⟨before, blanks, -, ⟨h, -⟩ | ⟨h, -⟩⟩
    · exact absurd (h ▸ List.mem_append_right before List.mem_cons_self) (by decide)
    · exact absurd (h ▸ List.mem_append_right before List.mem_cons_self) (by decide)
  | error e =>
    rw [hf] at hok
    cases hok

/-- Behind a message it is not: the closing curly of the message is reported. -/
theorem curly_before_ill_formed : ∃ bytes f,
    Utf8.decode bytes = ("message M \x7b\x7d".toList, some .invalidStart) ∧
      parse {} (Utf8.encode "message M \x7b\x7d".toList) "" = .ok f ∧
        parse {} bytes "" = .error (.unexpected "\x7d" Scope.file.expected
          { file := "", offset := 11, line := 1, column := 12 }) := by
  let bytes := Utf8.encode "message M \x7b\x7d".toList ++ [0xFF]
  have hok : (parse {} (Utf8.encode "message M \x7b\x7d".toList) "").toOption.isSome = true := by
    decide +kernel
  cases hf : parse {} (Utf8.encode "message M \x7b\x7d".toList) "" with
  | ok f =>
    exact ⟨bytes, f, by decide +kernel, rfl, eq_error (by decide +kernel)⟩
  | error e =>
    rw [hf] at hok
    cases hok

end ProtoIdl
