import ProtoIdl.Proofs.Grammar.Runs
/-!
# Looking ahead, run

Looking at the next token never fails, and attaching comments only looks. So what these steps do can be
written down: `Reading.run_peeked`, `Grammar.run_commentBehind` and `Grammar.run_attached`.
-/
namespace ProtoIdl

namespace Grammar

open Reading

/-- The comment that stands on the line of a place, and the comments left in the queue. -/
def claim (place : Position) : List Token → Option Comment × List Token
  | t :: rest =>
    if t.position.line = place.line then (some (Comment.ofToken t), rest) else (none, t :: rest)
  | [] => (none, [])

/-- The queue without the comments in front of a place. -/
def queueFrom (place : Position) (queue : List Token) : List Token :=
  queue.dropWhile fun t => t.position.offset < place.offset

/-- A reader that looks for a comment behind a place. -/
def seek (place : Position) (r : Reader) : Reader :=
  (r.setQueue (queueFrom place r.stream.pending)).peeked .plain

/-- The reader that has claimed it. -/
def claimed (place : Position) (r : Reader) : Reader :=
  (seek place r).setQueue (claim place (seek place r).stream.pending).2

theorem run_commentBehind (place : Position) (r : Reader) : commentBehind place r =
    .ok (claim place (seek place r).stream.pending).1 (claimed place r) := by
  rw [commentBehind, run_bind (run_pending r), run_bind (run_setPending _ r),
    run_bind (run_peeked .plain _), run_bind (run_pending _)]
  change (match (seek place r).stream.pending with
    | t :: rest => _
    | [] => _ : Reading (Option Comment)) (seek place r) = _
  have hself (ts : List Token) (h : (seek place r).stream.pending = ts) :
      (seek place r).setQueue ts = seek place r := h ▸ rfl
  rw [claimed]
  rcases h : (seek place r).stream.pending with _ | ⟨t, rest⟩
  · rw [claim, hself [] h]
    rfl
  · rw [claim]
    dsimp only
    by_cases hline : t.position.line = place.line
    · rw [if_pos hline, if_pos hline]
      rfl
    · rw [if_neg hline, if_neg hline, hself _ h]
      rfl

/-- The notes of a declaration with the comments around it, and the comments that do not fit. -/
def attachment (comments : List Comment) (notes : Notes) (r : Reader) : Notes × List Comment :=
  ({ notes with
      leading := comments.filter (isAbove notes.extent.start)
      inline := (claim notes.extent.last (seek notes.extent.last r).stream.pending).1 },
    comments.filter fun c => !isAbove notes.extent.start c)

theorem run_attach (comments : List Comment) (notes : Notes) (r : Reader) :
    attach comments notes r = .ok (attachment comments notes r) (claimed notes.extent.last r) := by
  rw [attach]
  exact run_bind (run_commentBehind notes.extent.last r)

/-! ## Rounds of a file -/

/-- The comments in front of a declaration that a round has come to, and its notes. -/
def Landing.declared? : Landing → Option (List Comment × Notes)
  | .ended _ | .skipped => none
  | .version comments v => some (comments, v.notes)
  | .element comments e => some (comments, e.notes?.getD {})

/-- The file with what a round has come to, whose comments are attached. -/
def Landing.put (f : File) (a : Notes × List Comment) : Landing → File
  | .ended _ | .skipped => f
  | .version _ v => { version := some { v with notes := a.1 }, body := a.2.map .comment }
  | .element _ e => { f with body := f.body ++ (a.2.map .comment ++ [e.mapNotes fun _ => a.1]) }

variable {f : File} {l : Landing} {r r' : Reader} {comments : List Comment} {notes : Notes}

theorem run_fileTail (hl : l.declared? = some (comments, notes)) (f : File) (r : Reader) :
    fileTail f l r = .ok (.again (l.put f (attachment comments notes r)))
      (claimed notes.extent.last r) := by
  cases l with
  | ended comments => cases hl
  | skipped => cases hl
  | version comments v =>
    cases hl
    exact run_bind (run_attach _ _ r)
  | element comments e =>
    cases hl
    have hattached := run_bind (run_attach comments (e.notes?.getD {}) r)
      (f := fun a => (pure ((if true then a.2.map Element.comment else []) ++
        [e.mapNotes fun _ => a.1]) : Reading (List Element)))
    exact run_bind hattached

/-- Attaching comments looks at the next token at most. -/
theorem fileTail_moves (hl : ∀ comments, l ≠ .ended comments) (f : File) (r : Reader) :
    ∃ f' r', fileTail f l r = .ok (.again f') r' ∧ r'.stream.rounds = r.stream.rounds ∧
      (r' = r ∨ r'.edge = (r.next .plain).mark ∧ r'.mark = (r.next .plain).mark) := by
  cases hd : l.declared? with
  | some a =>
    refine ⟨_, _, run_fileTail hd f r, ?_, .inr ⟨rfl, rfl⟩⟩
    rw [claimed, seek, Reader.rounds_setQueue, Reader.rounds_peeked, Reader.rounds_setQueue]
  | none =>
    cases l with
    | ended comments => exact absurd rfl (hl comments)
    | skipped => exact ⟨f, r, rfl, rfl, .inl rfl⟩
    | version comments v => cases hd
    | element comments e => cases hd

/-- A round that has seen the end of the text has passed over white space and comments only. -/
theorem fileHead_ended {opts : Options} {first : Bool} (hr : r.Stands)
    (h : fileHead opts first r = .ok (.ended comments) r') :
    ∃ ts d, r.edge.Leads .clear ts d d ∧ d.rest = [] := by
  have hnext : Sat (fileNext opts first) (r.peeked .plain) (fun l _ => ∀ comments,
      l = .ended comments → (((r.peeked .plain).setQueue []).next .keyword).token.kind = .eof)
        fun _ => True :=
    fileNext_sat rfl rfl (fun hk _ _ => hk) nofun (fun _ => (sat_trivial _ _).mono fun _ _ _ => nofun)
      fun _ => (sat_trivial _ _).mono fun _ _ _ => nofun
  rw [fileHead, run_bind (run_peeked .plain r)] at h
  have hk := hnext.ok h comments rfl
  obtain ⟨t, ts, d, e, hf, hr₁⟩ := hr.next_finds (m := .plain) rfl
  have hq : ((r.peeked .plain).setQueue []).Stands := (hr.peeked .plain).setQueue []
  obtain ⟨t', ts', d', e', hf', hr'⟩ := hq.next_finds (m := .keyword) rfl
  rw [hr'] at hk
  rw [Reader.edge_setQueue, Reader.edge_peeked, hr₁, Reader.mark_after] at hf'
  obtain ⟨-, rfl, hfound⟩ := hf.again hr.edge_whole hf'
  cases hfound with
  | token hl ht =>
    refine ⟨ts, d', hl, ?_⟩
    cases hf'.found with
    | lexed hne hd ht => exact absurd hk ht.ne_eof
    | eof hnil hd ht => exact hnil
  | unclosed hl =>
    obtain ⟨-, rfl, -⟩ := hl.unclosed_eq
    cases hk

/-- So has a round behind which the next one sees the end of the text. -/
theorem fileTail_ended {opts : Options} {first : Bool} {f' : File} {q : Reader} (hr : r.Stands)
    (hl : ∀ comments, l ≠ .ended comments) (htail : fileTail f l r = .ok (.again f') r')
    (h : fileHead opts first r' = .ok (.ended comments) q) :
    ∃ ts d, r.edge.Leads .clear ts d d ∧ d.rest = [] := by
  obtain ⟨f₁, r₁, htail₁, hrounds, hmoves⟩ := fileTail_moves hl f r
  rw [htail] at htail₁
  obtain ⟨-, rfl⟩ := EStateM.Result.ok.inj htail₁
  rcases hmoves with rfl | ⟨hedge, hmark⟩
  · exact fileHead_ended hr h
  obtain ⟨t, ts, d, e, hf, hnext⟩ := hr.next_finds (m := .plain) rfl
  rw [hnext, Reader.mark_after] at hedge hmark
  have hlooked : (r.looked t ts d).Stands := hr.looked hf.passes.reaches
  have hr' : r'.Stands := by
    refine ⟨hmark ▸ hlooked.whole, ?_, ?_⟩
    · rw [hmark, hedge]
      exact .refl d
    · rw [hmark, hrounds]
      exact hlooked.rounds
  obtain ⟨ts', d', hlead, hd⟩ := fileHead_ended hr' h
  rw [hedge] at hlead
  obtain ⟨rfl, hlead⟩ := hf.clear_of_mark hr.edge_whole hlead
  exact ⟨ts, d', hlead, hd⟩

end Grammar

end ProtoIdl
