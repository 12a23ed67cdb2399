import ProtoIdl.Proofs.Grammar.Joined
import ProtoIdl.Proofs.Progress
/-!
# Two files behind each other

Reading the text of a file with the text of another one behind it (`parse_append`). The first part of the
loop is a run over the first text, and what it leaves is a reader in front of the other text
(`exists_entered`). From there on it does what a fresh reader of the other text does (`rounds_behind`),
but for two things: a version may no longer come, and the file is not empty. So the rounds of the fresh
reader are read without a version as well (`Grammar.turned_unversioned`).
-/
namespace ProtoIdl

open Reading

namespace Grammar

variable {opts : Options} {l : Landing} {f f' g : File} {r r' : Reader} {k : Nat}

/-! ## Rounds without a version -/

/-- A round of a file in which no version may come. -/
def plainRound (opts : Options) (f : File) : Reading (Round File File) :=
  fileHead opts false >>= fileTail f

/-- Where a version may come but does not, it might as well be ruled out. -/
theorem fileNext_unversioned (h : fileNext opts true r = .ok l r')
    (hl : ∀ comments v, l ≠ .version comments v) : fileNext opts false r = .ok l r' := by
  have hversion (comments : List Comment) (q : Reader) :
      Sat (do return Landing.version comments (← version)) q
        (fun l _ => ∃ comments v, l = .version comments v) fun _ => True :=
    (sat_trivial _ _).bind fun v _ _ => sat_pure ⟨_, v, rfl⟩
  rw [fileNext, run_bind (run_pending r), run_bind (run_setPending [] r),
    run_bind (run_peeked .keyword _)] at h ⊢
  generalize ((r.setQueue []).next .keyword).token.kind = k at h ⊢
  split at h
  · exact h
  · exact h
  · rw [if_pos rfl] at h
    obtain ⟨comments, v, rfl⟩ := (hversion _ _).ok h
    exact absurd rfl (hl comments v)
  · exact h

theorem fileHead_unversioned {first : Bool} (h : fileHead opts first r = .ok l r')
    (hl : ∀ comments v, l ≠ .version comments v) : fileHead opts false r = .ok l r' := by
  cases first with
  | false => exact h
  | true =>
    rw [fileHead, run_bind (run_peeked .plain r)] at h ⊢
    exact fileNext_unversioned h hl

/-- A file that has no version behind a round had none in front of it, and the round took none. -/
theorem fileRound_unversioned (h : fileRound opts f r = .ok (.again f') r')
    (hv : f'.version = none) : plainRound opts f r = .ok (.again f') r' ∧ f.version = none := by
  obtain ⟨l, r₁, hhead, -, htail⟩ := fileRound_again h
  have hl (comments : List Comment) (v : Noted Version) : l ≠ .version comments v := by
    rintro rfl
    rw [run_fileTail rfl] at htail
    obtain ⟨hf, -⟩ := EStateM.Result.ok.inj htail
    rw [← Round.again.inj hf] at hv
    cases hv
  refine ⟨by rw [plainRound, run_bind (fileHead_unversioned hhead hl), htail], ?_⟩
  cases l with
  | ended comments => cases htail
  | skipped =>
    cases htail
    exact hv
  | version comments v => exact absurd rfl (hl comments v)
  | element comments e =>
    rw [run_fileTail rfl] at htail
    obtain ⟨hf, -⟩ := EStateM.Result.ok.inj htail
    rw [← Round.again.inj hf] at hv
    exact hv

theorem plainRound_done (h : fileRound opts g r = .ok (.done f) r') :
    plainRound opts g r = .ok (.done f) r' := by
  obtain ⟨comments, hhead, rfl⟩ := fileRound_done h
  have hl (ks : List Comment) (v : Noted Version) : Landing.ended comments ≠ .version ks v := nofun
  rw [plainRound, run_bind (fileHead_unversioned hhead hl)]
  rfl

theorem turned_unversioned (h : Turned (fileRound opts) k f r f' r') (hv : f'.version = none) :
    Turned (plainRound opts) k f r f' r' ∧ f.version = none := by
  induction h with
  | refl f r => exact ⟨.refl f r, hv⟩
  | step h _ ih =>
    obtain ⟨ht, hnone⟩ := ih hv
    obtain ⟨hround, hnone⟩ := fileRound_unversioned h hnone
    exact ⟨.step hround ht, hnone⟩

end Grammar

/-! ## Files behind each other -/

/-- What was read into `g`, behind what was read into `f`. -/
def File.behind (f : File) (move : Position → Position) (g : File) : File :=
  { version := f.version, body := f.body ++ g.body.map (Element.move move) }

namespace Grammar

variable {P : Coupling} {b : Bool}

theorem couples_fileTail_behind (hP : P.Lawful) (hloose : ¬ P.loose) (f g : File) {l : Landing}
    (hl : l.noted false = true) :
    Couples P b b (Round.map (f.behind P.move) (f.behind P.move)) (fileTail g l)
      (fileTail (f.behind P.move g) (l.move P.move)) := by
  cases l with
  | ended comments => exact couples_pure (by simp [Round.map, File.behind, Element.move])
  | skipped => exact couples_pure rfl
  | version comments v => cases hl
  | element comments e =>
    refine (couples_attached hP true (hloose.elim ·) e hl).bind hP fun read => couples_pure ?_
    simp [Round.map, File.behind]

/-- What a round does behind what was looked at. -/
theorem couples_fileNext_behind (hP : P.Follows) (hloose : ¬ P.loose) (opts : Options)
    (f g : File) :
    Couples P b b (Round.map (f.behind P.move) (f.behind P.move))
      (fileNext opts false >>= fileTail g)
      (fileNext opts (isFresh (f.behind P.move g)) >>= fileTail (f.behind P.move g)) := by
  have hnext : Couples P b b (Landing.move P.move) (fileNext opts false)
      (fileNext opts (isFresh (f.behind P.move g))) := couples_fileNext hP opts nofun
  exact hnext.bind_of hP.toLawful (fileNext_noted opts false) fun _ hl =>
    couples_fileTail_behind hP.toLawful hloose f g hl

theorem couples_plainRound (hP : P.Follows) (hloose : ¬ P.loose) (opts : Options) (f g : File) :
    Couples P b b (Round.map (f.behind P.move) (f.behind P.move)) (plainRound opts g)
      (fileRound opts (f.behind P.move g)) := by
  rw [plainRound, fileRound_eq, fileHead, fileHead, bind_assoc, bind_assoc]
  exact couples_peek_bind hP.toLawful (.inl rfl) fun _ =>
    (couples_fileNext_behind hP hloose opts f g).ahead

/-- Readers that have met behind a first look go through the same rounds. -/
theorem rounds_behind {s : Seam} {f f₂ g g' : File} {p p₁ p₂ q : Reader} (htail : s.tail = [])
    (hmeets : s.Meets false (p.peeked .plain) (q.peeked .plain))
    (ht : Turned (plainRound opts) k g p g' p₁) (hdone : plainRound opts g' p₁ = .ok (.done f₂) p₂) :
    ∃ q₁ q₂, Turned (fileRound opts) k (f.behind s.move g) q (f.behind s.move g') q₁ ∧
      fileRound opts (f.behind s.move g') q₁ = .ok (.done (f.behind s.move f₂)) q₂ := by
  have hP := s.follows
  have hround (g : File) : Couples s.coupling false false _ _ _ := couples_plainRound hP id opts f g
  have hfound {r : Reader} (h : s.Lost r) : False := h.tail_ne htail
  -- the first round of both starts with a look
  have hfirst (a : Round File File) (p₁ : Reader) (h : plainRound opts g p = .ok a p₁) :
      ∃ q₁, fileRound opts (f.behind s.move g) q =
        .ok (Round.map (f.behind s.move) (f.behind s.move) a) q₁ ∧ s.Meets false p₁ q₁ := by
    rw [plainRound, fileHead, bind_assoc, run_bind (run_peeked .plain p)] at h
    rw [fileRound_eq, fileHead, bind_assoc, run_bind (run_peeked .plain q)]
    have hout := (couples_fileNext_behind (b := false) hP id opts f g).2 _ _ hmeets
    rw [h] at hout
    exact hout.followed id hfound
  cases ht with
  | refl =>
    obtain ⟨q₂, hq₂, -⟩ := hfirst _ _ hdone
    exact ⟨q, q₂, .refl _ q, hq₂⟩
  | @step k _ g₁ _ _ r₁ _ h ht =>
    obtain ⟨r₂, hr₂, hrel⟩ := hfirst _ _ h
    obtain ⟨q₁, hq₁, hrel⟩ := (ht.coupled id hround hrel).resolve_left hfound
    have hout := (hround g').2 _ _ hrel
    rw [hdone] at hout
    obtain ⟨q₂, hq₂, -⟩ := hout.followed id hfound
    exact ⟨q₁, q₂, .step hr₂ hq₁, hq₂⟩

end Grammar

open Grammar

/-! ## The texts -/

/-- The seam between a text by itself and the same text behind `chars`. -/
def Seam.behind (chars : List Char) : Seam where
  offset := (Utf8.encode chars).length
  line := chars.count '\n'
  stop _ _ h := absurd h.symm (List.cons_ne_nil _ _)
  closed _ := ⟨rfl, rfl⟩

variable {opts : Options} {s₁ s₂ : List Char} {file : String} {f₁ f₂ : File}

/-- Behind whole lines a file starts in the first column. -/
theorem Position.after_lines (h : s₁ = [] ∨ ∃ lines, s₁ = lines ++ ['\n']) (file : String) :
    (first file).after s₁ = (Seam.behind s₁).move (first file) := by
  have hcolumn : ((first file).after s₁).column = 1 := by
    rw [column_after_first]
    rcases h with rfl | ⟨lines, rfl⟩
    · rfl
    · rw [List.reverse_append]
      rfl
  have hfile := file_after (first file) s₁
  have hoffset := offset_after (first file) s₁
  have hline := line_after (first file) s₁
  generalize (first file).after s₁ = p at hcolumn hfile hoffset hline ⊢
  cases p
  simp_all [Seam.move, Seam.behind, shift, first]

theorem Cursor.endsLine_ofBytes (file : String) (h : s₁ = [] ∨ ∃ lines, s₁ = lines ++ ['\n']) :
    (Cursor.ofBytes (Utf8.encode s₁) file).EndsLine := by
  rw [Cursor.ofBytes_encode]
  rintro x hx
  rcases h with rfl | ⟨lines, rfl⟩
  · cases hx
  · rw [List.getLast?_concat] at hx
    exact (Option.some.inj hx).symm

/-- At the end of the first text starts the other one. -/
theorem Cursor.Reaches.followed_atEnd (hs : s₁ = [] ∨ ∃ lines, s₁ = lines ++ ['\n']) {c : Cursor}
    (hc : (Cursor.ofBytes (Utf8.encode s₁) file).Reaches c) :
    c.atEnd.followed s₂ = (Seam.behind s₁).right (Cursor.ofBytes (Utf8.encode s₂) file) := by
  have hending : c.atEnd.ending = none := by
    rw [(hc.trans c.reaches_atEnd).ending_eq, Cursor.ofBytes_encode]
  rw [Cursor.followed, hc.position_atEnd, hending, Cursor.rest_atEnd, Position.after_lines hs,
    Cursor.ofBytes_encode]
  simp [Seam.right, Seam.behind]

/-- No comments are at the end if the last element is none. -/
theorem comments_eq_nil (body : List Element) {comments : List Comment}
    (h : ∀ c, (body ++ comments.map Element.comment).getLast? ≠ some (.comment c)) :
    comments = [] := by
  rcases List.eq_nil_or_concat comments with hnil | ⟨before, c, rfl⟩
  · exact hnil
  · refine absurd ?_ (h c)
    rw [List.concat_eq_append, List.map_append, ← List.append_assoc]
    exact List.getLast?_concat

/-- A declaration does not end a text that ends with a newline. -/
theorem Reader.Landed.rest_ne {e : Cursor} {r : Reader} (h : r.Landed e) (hends : r.mark.EndsLine) :
    r.edge.rest ≠ [] := by
  obtain ⟨x, more, hx, hstop⟩ := h.stop
  rintro hnil
  rw [h.edge, Cursor.rest_advance, hx] at hnil
  obtain rfl : more = [] := hnil
  obtain rfl := hends x (by rw [hx]; rfl)
  exact absurd hstop (by decide)

/-- The other side of the seam, if another text follows. -/
theorem Reader.Landed.seam_followed {e c : Cursor} {r : Reader} (h : r.Landed e) (more : List Char)
    (hc : c.ending = none) : (h.seam more none).right c = c.followed more := by
  rw [Seam.right, Seam.move_id rfl rfl, Cursor.followed]
  simp [Reader.Landed.seam, hc]

/-- The first file is read with the other text behind it, and the reader enters that text. -/
theorem exists_entered (h : parse opts (Utf8.encode s₁) file = .ok f₁)
    (hs : s₁ = [] ∨ ∃ lines, s₁ = lines ++ ['\n'])
    (hlast : ∀ c, f₁.body.getLast? ≠ some (.comment c)) {t : Token} {us : List Token} {d e : Cursor}
    (hf : (Cursor.ofBytes (Utf8.encode s₂) file).Finds .plain t us d e) :
    ∃ k q, Turned (fileRound opts) k {} (.ofBytes (Utf8.encode (s₁ ++ s₂)) file) f₁ q ∧
      q.Enters s₂ (us.map (Token.move (Seam.behind s₁).move)) ((Seam.behind s₁).right d) := by
  have hwhole : (Utf8.decode (Utf8.encode s₁)).2 = none := by rw [Utf8.decode_encode]
  have hwhole₂ : (Cursor.ofBytes (Utf8.encode s₂) file).ending = none := by
    rw [Cursor.ofBytes_encode]
  have hends := Cursor.endsLine_ofBytes file hs
  have hright := hf.right (s := Seam.behind s₁) hwhole₂ List.nil_suffix
  cases parse_readTo hwhole h with
  | @bare comments r hhead hf₁ =>
    subst hf₁
    obtain rfl := comments_eq_nil [] hlast
    have hnone := List.map_eq_nil_iff.1 (fileHead_comments hhead).symm
    have hstands := Reader.stands_ofBytes file hwhole
    have hjoins : (Reader.ofBytes (Utf8.encode s₁) file).Joins s₂ _ _
        (.ofBytes (Utf8.encode (s₁ ++ s₂)) file) :=
      { stands := hstands
        edge := by
          rw [Reader.edge_ofBytes, Reader.edge_ofBytes, Cursor.ofBytes_encode, Cursor.ofBytes_encode]
          rfl
        pending := rfl
        rounds := Nat.lt_succ_self _
        ends := hends
        clear := fileHead_ended hstands hhead
        finds := ⟨_, _, (Cursor.Reaches.refl _).followed_atEnd hs ▸ hright⟩ }
    exact ⟨0, _, .refl _ _, hjoins.enters rfl hnone⟩
  | @landed k g g' l comments r r₁ q q₁ hk ht hr hhead hl hlanded htail hend hf₁ =>
    subst hf₁
    obtain rfl := comments_eq_nil g'.body hlast
    have hnone := List.map_eq_nil_iff.1 (fileHead_comments hend).symm
    obtain ⟨p, p₁, hp, hheadp, hmeets⟩ :=
      ht.across hhead hlanded s₂ none (Utf8.decode_encode s₁) (Utf8.decode_encode _)
    have hreach : (Cursor.ofBytes (Utf8.encode s₁) file).Reaches r₁.edge :=
      Reader.edge_ofBytes (Utf8.encode s₁) file ▸ hlanded.mark_reached.trans hlanded.reached
    have hjoins : r₁.Joins s₂ _ _ p₁ :=
      { stands := hlanded.toStands
        edge := hmeets.edge.trans (hlanded.seam_followed s₂ hlanded.edge_whole)
        pending := by
          rw [hmeets.pending, Seam.move_id rfl rfl, Token.move_id, List.map_id]
        rounds := hmeets.edge_rounds
        ends := hends.suffix hreach.suffix
        clear := fileTail_ended hlanded.toStands hl htail hend
        finds := ⟨_, _, hreach.followed_atEnd hs ▸ hright⟩ }
    have hround {g' : File} {p₂ : Reader} (h : fileTail g l p₁ = .ok (.again g') p₂) :
        fileRound opts g p = .ok (.again g') p₂ := by
      rw [fileRound_eq, run_bind hheadp, h]
    suffices ∃ p₂, fileTail g l p₁ = .ok (.again g') p₂ ∧ p₂.Enters s₂ _ _ by
      obtain ⟨p₂, htailp, henters⟩ := this
      refine ⟨k + 1, p₂, ?_, henters⟩
      simpa using hp.snoc (hround htailp)
    cases hd : l.declared? with
    | none =>
      cases l with
      | ended comments => exact absurd rfl (hl comments)
      | skipped =>
        cases htail
        exact ⟨p₁, rfl, hjoins.enters (fileHead_skipped hr.toStands hhead) hnone⟩
      | version comments v => cases hd
      | element comments e => cases hd
    | some a =>
      obtain ⟨hbehind, hstops⟩ := fileHead_declared hr.toStands hhead hd
      -- the newline at the end is below the declaration, and the other text is behind it
      have hstart : (Cursor.ofBytes (Utf8.encode s₁) file).Reaches r.edge :=
        Reader.edge_ofBytes (Utf8.encode s₁) file ▸ hr.mark_reached.trans hr.reached
      have hmark : r₁.mark.EndsLine := hends.suffix <|
        (Reader.edge_ofBytes (Utf8.encode s₁) file ▸ hlanded.mark_reached).suffix
      have hline := (hstops.of_reaches hstart).line_lt hends (hlanded.rest_ne hmark)
      refine fileTail_joins hjoins hd hbehind (fun u hu => hline.trans_le ?_) htail hnone
      obtain ⟨t, e, hf⟩ := hjoins.finds
      exact hf.passes.line_le u hu

/-- In front of the first token of the other text its reader and the one of both texts have met. -/
theorem meets_entered {t : Token} {us : List Token} {d e : Cursor} {q : Reader}
    (hf : (Cursor.ofBytes (Utf8.encode s₂) file).Finds .plain t us d e)
    (hq : q.Enters s₂ (us.map (Token.move (Seam.behind s₁).move)) ((Seam.behind s₁).right d)) :
    (Seam.behind s₁).Meets false ((Reader.ofBytes (Utf8.encode s₂) file).peeked .plain)
      (q.peeked .plain) := by
  have hstands : (Reader.ofBytes (Utf8.encode s₂) file).Stands :=
    Reader.stands_ofBytes file (by rw [Utf8.decode_encode])
  have hnext := Reader.next_of_finds rfl hf hstands.edge_rounds
  have hlen : (Cursor.ofBytes (Utf8.encode s₂) file).rest.length = s₂.length := by
    rw [Cursor.ofBytes_encode]
  have hle := hf.passes.reaches.length_le
  have hlt := hq.rounds
  refine ⟨hstands.peeked .plain, ?_, ?_, .inl List.nil_suffix, ?_, ?_, ?_, nofun⟩
  · rw [Reader.edge_peeked, Reader.edge_peeked, hq.mark, hnext, Reader.mark_after]
  · rw [Reader.mark_peeked, Reader.mark_peeked, hq.mark, hnext, Reader.mark_after]
  · rw [Reader.pending_peeked, Reader.pending_peeked, hq.pending, hnext]
    rfl
  · rw [Reader.rounds_peeked, Reader.rounds_peeked, Reader.rounds_ofBytes]
    omega
  · rw [Reader.mark_peeked, Reader.rounds_peeked, hnext, Reader.mark_after]
    change d.rest.length + 0 < _
    omega

/-- Rounds that end make a file: there are enough of them. -/
theorem parse_of_turned {chars : List Char} {k : Nat} {f g : File} {q q₁ : Reader}
    (ht : Turned (fileRound opts) k {} (.ofBytes (Utf8.encode chars) file) g q)
    (hdone : fileRound opts g q = .ok (.done f) q₁) :
    parse opts (Utf8.encode chars) file = .ok f := by
  have hleft := Reader.left_ofBytes file (by rw [Utf8.decode_encode chars])
  have hlasts := lasts_file opts _ (Nat.le_refl _) _ hleft
  have hloop : Grammar.file opts (.ofBytes (Utf8.encode chars) file) =
      repeatAtMost (fileRound opts) (Reader.ofBytes (Utf8.encode chars) file).rounds {}
        (.ofBytes (Utf8.encode chars) file) := by
    rw [Grammar.file, repeatFrom, run_bind (run_get _)]
  have hfile := ht.repeatAtMost_done hdone fun r' h => hlasts.error (hloop.trans h) rfl
  rw [parse, parseWith]
  unfold Reading.outcome
  rw [hloop, hfile]

/-- The text of a file with the text of another one behind it is read as both: first what is in the
first, then what is in the other, which is as much further in its places. The first text ends with a
newline, and with a declaration rather than a comment, and the other one names no version. -/
theorem parse_append (opts : Options) (s₁ s₂ : List Char) (file : String) (f₁ f₂ : File)
    (h₁ : parse opts (Utf8.encode s₁) file = .ok f₁)
    (h₂ : parse opts (Utf8.encode s₂) file = .ok f₂)
    (hs : s₁ = [] ∨ ∃ lines, s₁ = lines ++ ['\n'])
    (hlast : ∀ c, f₁.body.getLast? ≠ some (.comment c)) (hversion : f₂.version = none) :
    parse opts (Utf8.encode (s₁ ++ s₂)) file = .ok
      { version := f₁.version
        body := f₁.body ++ f₂.body.map
          (Element.move (Position.shift (Utf8.encode s₁).length (s₁.count '\n'))) } := by
  have hstands : (Reader.ofBytes (Utf8.encode s₂) file).Stands :=
    Reader.stands_ofBytes file (by rw [Utf8.decode_encode])
  obtain ⟨t, us, d, e, hf, -⟩ := hstands.next_finds (m := .plain) rfl
  obtain ⟨k, q, ht, hq⟩ := exists_entered h₁ hs hlast hf
  obtain ⟨k₂, g, p, p₁, -, ht₂, hdone⟩ := parse_turned h₂
  have hnone : g.version = none := by
    obtain ⟨comments, -, rfl⟩ := fileRound_done hdone
    exact hversion
  obtain ⟨ht₂, -⟩ := turned_unversioned ht₂ hnone
  obtain ⟨q₁, q₂, hq₁, hq₂⟩ := rounds_behind (f := f₁) rfl (meets_entered hf hq) ht₂
    (plainRound_done hdone)
  have hstart : f₁.behind (Seam.behind s₁).move {} = f₁ := by simp [File.behind]
  rw [hstart] at hq₁
  exact parse_of_turned (ht.trans hq₁) hq₂

/-- A version and a message with a comment on the line of its end. -/
def firstText : List Char := "syntax = \"proto3\";\nmessage A \x7b\x7d // a\n".toList

/-- A message behind a comment. -/
def secondText : List Char := "// b\nmessage B \x7b\x7d".toList

theorem parse_append_sample : ∃ f₁ f₂, parse {} (Utf8.encode firstText) "" = .ok f₁ ∧
    parse {} (Utf8.encode secondText) "" = .ok f₂ ∧ f₁.version.isSome = true ∧ f₂.body.length = 1 ∧
      parse {} (Utf8.encode (firstText ++ secondText)) "" = .ok
        { version := f₁.version
          body := f₁.body ++ f₂.body.map
            (Element.move (Position.shift (Utf8.encode firstText).length (firstText.count '\n'))) } := by
  have hok₁ : (parse {} (Utf8.encode firstText) "").toOption.any (fun f => f.version.isSome &&
      f.body.getLast?.any fun e => e.notes?.isSome) = true := by decide +kernel
  have hok₂ : (parse {} (Utf8.encode secondText) "").toOption.any (fun f =>
      f.version.isNone && f.body.length == 1) = true := by decide +kernel
  cases h₁ : parse {} (Utf8.encode firstText) "" with
  | error e =>
    rw [h₁] at hok₁
    cases hok₁
  | ok f₁ =>
    cases h₂ : parse {} (Utf8.encode secondText) "" with
    | error e =>
      rw [h₂] at hok₂
      cases hok₂
    | ok f₂ =>
      rw [h₁] at hok₁
      rw [h₂] at hok₂
      simp only [Except.toOption, Option.any_some, Bool.and_eq_true, Option.isNone_iff_eq_none,
        beq_iff_eq] at hok₁ hok₂
      have hlast (c : Comment) : f₁.body.getLast? ≠ some (.comment c) := by
        intro h
        rw [h] at hok₁
        cases hok₁.2
      exact ⟨f₁, f₂, rfl, rfl, hok₁.1, hok₂.2, parse_append {} firstText secondText "" f₁ f₂ h₁ h₂
        (.inr ⟨firstText.dropLast, by decide⟩) hlast hok₂.1⟩

end ProtoIdl
