import ProtoIdl.Proofs.Grammar.Meeting
import ProtoIdl.Proofs.Places
/-!
# Runs of a file in two texts

Reading a file is a loop. What its rounds do in one text they do in another one, as long as the readers
have met (`Reading.Turned.coupled`). So if a file is read, and its last declaration ends with the stop at
which a seam begins, the same declarations are read on the other side of the seam, up to that stop
(`Reading.Turned.across`).
-/
namespace ProtoIdl

namespace Reading

variable {α β σ τ : Type} {round : σ → Reading (Round σ α)} {round' : τ → Reading (Round τ β)}
  {k : Nat} {s s' : σ} {r r' q : Reader}

/-- A run keeps what every round keeps. -/
theorem Turned.keeps {I : Invariant} (h : Turned round k s r s' r') (hround : ∀ s, Keeps I (round s))
    (hr : I.holds r) : I.holds r' := by
  induction h with
  | refl s r => exact hr
  | step h _ ih => exact ih ((hround _ _ hr).ok h)

/-- A run on the left is a run on the right, unless the left one gets lost. -/
theorem Turned.coupled {P : Coupling} {b : Bool} {χ : σ → τ} {φ : α → β}
    (hl : ¬ P.loose) (h : Turned round k s r s' r')
    (hround : ∀ s, Couples P b b (Round.map χ φ) (round s) (round' (χ s))) (hr : P.rel b r q) :
    P.lost.holds r' ∨ ∃ q', Turned round' k (χ s) q (χ s') q' ∧ P.rel b r' q' := by
  induction h generalizing q with
  | refl s r => exact .inr ⟨q, .refl _ q, hr⟩
  | @step k s s₁ s' r r₁ r' h ht ih =>
    have hout := (hround s).2 r q hr
    rw [h] at hout
    rcases hout with hlost | ⟨q₁, hq, hr₁⟩ | hloose
    · exact .inl (ht.keeps (fun s => (hround s).1) hlost)
    · exact (ih hr₁).imp_right fun ⟨q', ht', hr'⟩ => ⟨q', .step hq ht', hr'⟩
    · exact absurd hloose.1 hl

end Reading

namespace Grammar

open Reading

variable {opts : Options} {f g : File} {r r' : Reader}

/-- A round that is done has seen the end of the text. -/
theorem fileRound_done (h : fileRound opts g r = .ok (.done f) r') : ∃ comments,
    fileHead opts (isFresh g) r = .ok (.ended comments) r' ∧
      f = { g with body := g.body ++ comments.map .comment } := by
  rw [fileRound_eq] at h
  cases hhead : fileHead opts (isFresh g) r with
  | error e r₁ =>
    rw [run_bind_error hhead] at h
    cases h
  | ok l r₁ =>
    rw [run_bind hhead] at h
    have htail : Sat (fileTail g l) r₁ (fun a r' => a = .done f → ∃ comments, l = .ended comments ∧
        r' = r₁ ∧ f = { g with body := g.body ++ comments.map .comment }) fun _ => True := by
      cases l with
      | ended comments => exact sat_pure fun heq => ⟨comments, rfl, rfl, (Round.done.inj heq).symm⟩
      | skipped => exact sat_pure nofun
      | version comments v => exact (sat_trivial _ _).bind fun _ _ _ => sat_pure nofun
      | element comments e => exact (sat_trivial _ _).bind fun _ _ _ => sat_pure nofun
    obtain ⟨comments, rfl, rfl, hf⟩ := htail.ok h rfl
    exact ⟨comments, rfl, hf⟩

/-- A round that is not done has not. -/
theorem fileRound_again (h : fileRound opts g r = .ok (.again f) r') : ∃ l r₁,
    fileHead opts (isFresh g) r = .ok l r₁ ∧ (∀ comments, l ≠ .ended comments) ∧
      fileTail g l r₁ = .ok (.again f) r' := by
  rw [fileRound_eq] at h
  cases hhead : fileHead opts (isFresh g) r with
  | error e r₁ =>
    rw [run_bind_error hhead] at h
    cases h
  | ok l r₁ =>
    rw [run_bind hhead] at h
    refine ⟨l, r₁, rfl, ?_, h⟩
    rintro comments rfl
    cases h

end Grammar

open Reading Grammar

variable {opts : Options} {bytes bytes' : List UInt8} {file : String} {f g : File} {s : Seam}

/-- How a file is read from `start` on: nothing but comments is there, or the reader lands behind a last
declaration and sees the end of the text in the round behind it. -/
inductive Grammar.ReadTo (opts : Options) (start : Reader) (f : File) : Prop
  | bare {comments : List Comment} {r : Reader}
      (hhead : fileHead opts true start = .ok (.ended comments) r)
      (hf : f = { body := comments.map .comment })
  | landed {k : Nat} {g g' : File} {l : Landing} {comments : List Comment} {r r₁ q q₁ : Reader}
      (hk : k + 1 < start.rounds) (ht : Turned (fileRound opts) k {} start g r)
      (hr : r.Behind start.edge)
      (hhead : fileHead opts (isFresh g) r = .ok l r₁) (hl : ∀ comments, l ≠ .ended comments)
      (hlanded : r₁.Landed start.edge) (htail : fileTail g l r₁ = .ok (.again g') q)
      (hend : fileHead opts (isFresh g') q = .ok (.ended comments) q₁)
      (hf : f = { g' with body := g'.body ++ comments.map .comment })

/-- A file that is read was read in rounds. -/
theorem parse_turned (h : parse opts bytes file = .ok f) : ∃ k g r r',
    k < (Reader.ofBytes bytes file).rounds ∧ Turned (fileRound opts) k {} (.ofBytes bytes file) g r ∧
      fileRound opts g r = .ok (.done f) r' := by
  obtain ⟨r', hfile⟩ := parse_ok h
  rw [Grammar.file, repeatFrom, run_bind (run_get _)] at hfile
  obtain ⟨k, g, r, hk, ht, hdone⟩ := turned_of_ok hfile
  exact ⟨k, g, r, r', hk, ht, hdone⟩

/-- A text that is read is read in this way. -/
theorem parse_readTo (hwhole : (Utf8.decode bytes).2 = none) (h : parse opts bytes file = .ok f) :
    ReadTo opts (.ofBytes bytes file) f := by
  obtain ⟨k, g, r, r', hk, ht, hdone⟩ := parse_turned h
  obtain ⟨comments, hend, hf⟩ := fileRound_done hdone
  cases k with
  | zero =>
    cases ht
    exact .bare hend hf
  | succ k =>
    obtain ⟨g₁, r₁, ht, hround⟩ := ht.last
    obtain ⟨l, r₂, hhead, hl, htail⟩ := fileRound_again hround
    have hstart : (Reader.ofBytes bytes file).Behind (Reader.ofBytes bytes file).edge :=
      ⟨Reader.stands_ofBytes file hwhole, .refl _⟩
    have hbehind := ht.keeps (keeps_fileRound (staysBehind_queueless _) opts) hstart
    have hlanded := ((fileHead_lands opts _ hbehind).ok hhead).resolve_left fun ⟨_, h⟩ => hl _ h
    exact .landed hk ht hbehind hhead hl hlanded htail hend hf

namespace Seam

theorem move_id (hoffset : s.offset = 0) (hline : s.line = 0) : s.move = id := by
  rw [move, hoffset, hline, Position.shift_zero]

/-- Readers at the beginning of the two texts have met. -/
theorem meets_ofBytes {chars : List Char} (hoffset : s.offset = 0) (hline : s.line = 0)
    (h : Utf8.decode bytes = (chars, none)) (h' : Utf8.decode bytes' = (chars ++ s.more, s.ending))
    (htail : s.tail <:+ chars) : s.Meets true (.ofBytes bytes file) (.ofBytes bytes' file) := by
  have hmove := move_id hoffset hline
  have hright : s.right (Cursor.ofBytes bytes file) = Cursor.ofBytes bytes' file := by
    simp [right, Cursor.ofBytes, h, h', hmove]
  have hlen : (Cursor.ofBytes bytes' file).rest.length = chars.length + s.more.length := by
    simp [Cursor.ofBytes, h']
  have hchars : (Cursor.ofBytes bytes file).rest = chars := by simp [Cursor.ofBytes, h]
  refine ⟨Reader.stands_ofBytes file (by rw [h]), hright.symm, hright.symm, .inl ?_, rfl, ?_, ?_, ?_⟩
  · exact (congrArg (s.tail <:+ ·) hchars).mpr htail
  · change (Cursor.ofBytes bytes file).rest.length + 1 ≤ (Cursor.ofBytes bytes' file).rest.length + 1
    rw [hlen, hchars]
    omega
  · change (Cursor.ofBytes bytes file).rest.length + s.more.length <
      (Cursor.ofBytes bytes' file).rest.length + 1
    rw [hlen, hchars]
    omega
  · intro _
    rw [hmove]
    rfl

end Seam

/-- The seam behind the declaration that a reader has landed behind. -/
def Reader.Landed.seam {e : Cursor} {r : Reader} (h : r.Landed e) (more : List Char)
    (ending : Option Utf8.Fault) : Seam where
  tail := r.mark.rest
  more := more
  ending := ending
  stop x rest hx := by
    obtain ⟨y, more, hy, hstop⟩ := h.stop
    rw [hx] at hy
    exact (List.cons.inj hy).1 ▸ hstop
  closed hnil := by
    obtain ⟨y, more, hy, -⟩ := h.stop
    rw [hnil] at hy
    cases hy

/-- The declarations of a file up to the last one are read on the other side as well, and so is the
last one up to its end, where the seam begins. -/
theorem Reading.Turned.across {k : Nat} {chars : List Char} {l : Landing} {r r₁ : Reader}
    (ht : Turned (fileRound opts) k {} (.ofBytes bytes file) g r)
    (hhead : fileHead opts (isFresh g) r = .ok l r₁)
    (hl : r₁.Landed (Reader.ofBytes bytes file).edge)
    (more : List Char) (ending : Option Utf8.Fault) (h : Utf8.decode bytes = (chars, none))
    (h' : Utf8.decode bytes' = (chars ++ more, ending)) : ∃ q q₁,
      Turned (fileRound opts) k {} (.ofBytes bytes' file) g q ∧
        fileHead opts (isFresh g) q = .ok l q₁ ∧ (hl.seam more ending).Meets true r₁ q₁ := by
  have hP := (hl.seam more ending).follows
  have hmove := Seam.move_id (s := hl.seam more ending) rfl rfl
  have htail : r₁.mark.rest <:+ chars := by
    have hsuffix := hl.mark_reached.suffix
    rwa [Reader.edge_ofBytes, Cursor.ofBytes, h] at hsuffix
  have hstart : (hl.seam more ending).Meets true (.ofBytes bytes file) (.ofBytes bytes' file) :=
    Seam.meets_ofBytes rfl rfl h h' htail
  have hcouples := couples_fileHead (b := true) hP opts (id : isFresh g = true → isFresh g = true)
  -- the left reader is not lost in the end, so it has not been lost before
  have hfound (hlost : (hl.seam more ending).Lost r) : False :=
    ((hcouples.1 r hlost).ok hhead).off rfl
  rcases ht.coupled id (fun f => couples_fileRound hP opts f) hstart with hlost | ⟨q, hq, hrq⟩
  · exact (hfound hlost).elim
  have hout := hcouples.2 r q hrq
  rw [hhead] at hout
  rcases hout with hlost | ⟨q₁, hq₁, hrel⟩ | hloose
  · exact absurd rfl hlost.off
  · refine ⟨q, q₁, ?_, ?_, hrel⟩
    · simpa only [Seam.coupling, hmove, File.move_id] using hq
    · simpa only [Seam.coupling, hmove, Landing.move_id] using hq₁
  · exact hloose.1.elim

end ProtoIdl
