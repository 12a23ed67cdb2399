import ProtoIdl.Proofs.Grammar.Footing
import ProtoIdl.Grammar.Body
/-!
# The rounds of a file

A round of a file first reads what comes next, up to the semicolon or the curly that ends it
(`fileHead`), and then attaches the comments around it (`fileTail`, `fileRound_eq`). `Reading.Turned`
tells which rounds a loop has gone through; a loop that succeeds comes apart into them
(`Reading.turned_of_ok`).
-/
namespace ProtoIdl

namespace Reading

variable {α σ : Type}

/-- From `s` and `r` on a loop has gone through `k` rounds, which left `s'` and `r'`. -/
inductive Turned (round : σ → Reading (Round σ α)) : Nat → σ → Reader → σ → Reader → Prop
  | refl (s : σ) (r : Reader) : Turned round 0 s r s r
  | step {k : Nat} {s s₁ s' : σ} {r r₁ r' : Reader} (h : round s r = .ok (.again s₁) r₁)
      (ht : Turned round k s₁ r₁ s' r') : Turned round (k + 1) s r s' r'

variable {round : σ → Reading (Round σ α)} {k n : Nat} {s s₁ s' : σ} {r r₁ r' : Reader} {a : α}

namespace Turned

theorem snoc (h : Turned round k s r s₁ r₁) (h₁ : round s₁ r₁ = .ok (.again s') r') :
    Turned round (k + 1) s r s' r' := by
  induction h with
  | refl s r => exact .step h₁ (.refl s' r')
  | step h _ ih => exact .step h (ih h₁)

theorem trans {k' : Nat} (h : Turned round k s r s₁ r₁) (h' : Turned round k' s₁ r₁ s' r') :
    Turned round (k + k') s r s' r' := by
  induction h with
  | refl s r => rwa [Nat.zero_add]
  | @step k s _ _ r _ _ h _ ih =>
    rw [Nat.add_right_comm]
    exact .step h (ih h')

/-- The last round of a loop that has gone through one. -/
theorem last (h : Turned round (k + 1) s r s' r') : ∃ s₁ r₁, Turned round k s r s₁ r₁ ∧
    round s₁ r₁ = .ok (.again s') r' := by
  induction k generalizing s r with
  | zero =>
    cases h with
    | step h ht =>
      cases ht
      exact ⟨s, r, .refl s r, h⟩
  | succ k ih =>
    cases h with
    | step h ht =>
      obtain ⟨s₁, r₁, ht, h₁⟩ := ih ht
      exact ⟨s₁, r₁, .step h ht, h₁⟩

theorem repeatAtMost_eq (h : Turned round k s r s' r') (n : Nat) :
    repeatAtMost round (k + n) s r = repeatAtMost round n s' r' := by
  induction h with
  | refl s r => rw [Nat.zero_add]
  | step h _ ih =>
    rw [Nat.succ_add]
    exact (run_bind h).trans ih

/-- Fewer rounds are too few. -/
theorem out (h : Turned round k s r s' r') (hn : n ≤ k) :
    ∃ r', repeatAtMost round n s r = .error .outOfRounds r' := by
  induction h generalizing n with
  | refl s r => exact ⟨r, by rw [Nat.le_zero.1 hn]; rfl⟩
  | @step k s _ _ r _ _ h _ ih =>
    cases n with
    | zero => exact ⟨r, rfl⟩
    | succ n =>
      obtain ⟨r', hr'⟩ := ih (Nat.le_of_succ_le_succ hn)
      exact ⟨r', (run_bind h).trans hr'⟩

/-- A loop that does not run out of rounds gets behind those it goes through. -/
theorem repeatAtMost_done (h : Turned round k s r s₁ r₁) (h₁ : round s₁ r₁ = .ok (.done a) r')
    (hout : ∀ r', repeatAtMost round n s r ≠ .error .outOfRounds r') :
    repeatAtMost round n s r = .ok a r' := by
  rcases Nat.lt_or_ge k n with hn | hn
  · obtain ⟨m, rfl⟩ : ∃ m, n = k + (m + 1) := ⟨n - k - 1, by omega⟩
    rw [h.repeatAtMost_eq]
    exact run_bind h₁
  · obtain ⟨r', hr'⟩ := h.out hn
    exact absurd hr' (hout r')

end Turned

theorem reject_bind {β : Type} (expected : String) (f : α → Reading β) :
    (reject expected >>= f) = reject expected := rfl

/-- A loop that succeeds has gone through its rounds, and the last one was done. -/
theorem turned_of_ok (h : repeatAtMost round n s r = .ok a r') : ∃ k s₁ r₁, k < n ∧
    Turned round k s r s₁ r₁ ∧ round s₁ r₁ = .ok (.done a) r' := by
  induction n generalizing s r with
  | zero => cases h
  | succ n ih =>
    cases hround : round s r with
    | error e r₁ =>
      rw [repeatAtMost, run_bind_error hround] at h
      cases h
    | ok b r₁ =>
      rw [repeatAtMost, run_bind hround] at h
      cases b with
      | again s₁ =>
        obtain ⟨k, s₂, r₂, hk, ht, hdone⟩ := ih h
        exact ⟨k + 1, s₂, r₂, Nat.succ_lt_succ hk, .step hround ht, hdone⟩
      | done b =>
        cases h
        exact ⟨0, s, r, Nat.succ_pos n, .refl s r, hround⟩

end Reading

namespace Grammar

open Reading

/-- An element with the comments around its declaration. -/
def attached (keep : Bool) (comments : List Comment) (e : Element) : Reading (List Element) := do
  let (notes, strays) ← attach comments (e.notes?.getD {})
  return (if keep then strays.map .comment else []) ++ [e.mapNotes fun _ => notes]

theorem element_eq (opts : Options) (body : Scope → Reading Body) (keep : Bool)
    (comments : List Comment) (p : Production) :
    element opts body keep comments p = declaration opts body p >>= attached keep comments := rfl

/-- What a round of a file has come to: the comments in front of it, and what was read. -/
inductive Landing
  | ended (comments : List Comment)
  | skipped
  | version (comments : List Comment) (v : Noted Version)
  | element (comments : List Comment) (e : Element)

/-- Claims the comments queued and reads what comes next. A version has to be the first. -/
def fileNext (opts : Options) (first : Bool) : Reading Landing := do
  let queue ← pending
  setPending []
  let comments := queue.map Comment.ofToken
  match ← peek .keyword with
  | .eof => return .ended comments
  | .delimiter .semicolon =>
    let _ ← next .plain
    return .skipped
  | .keyword .kwSyntax =>
    if first then return .version comments (← version)
    else
      let _ ← nextKeyword
      reject Scope.file.expected
  | kind =>
    match Scope.file.production? kind with
    | none =>
      let _ ← nextKeyword
      reject Scope.file.expected
    | some p => return .element comments (← declaration opts (body opts) p)

/-- Reads what comes next, behind the comments in front of it. -/
def fileHead (opts : Options) (first : Bool) : Reading Landing := do
  let _ ← peek .plain
  fileNext opts first

/-- Attaches the comments around what was read. -/
def fileTail (f : File) : Landing → Reading (Round File File)
  | .ended comments => return .done { f with body := f.body ++ comments.map .comment }
  | .skipped => return .again f
  | .version comments v => do
    let (notes, strays) ← attach comments v.notes
    return .again { version := some { v with notes }, body := strays.map .comment }
  | .element comments e => do
    let read ← attached true comments e
    return .again { f with body := f.body ++ read }

/-- What a round comes to: the end of the text, a semicolon, a version or another declaration. The token
there was looked at. -/
theorem fileNext_sat {opts : Options} {first : Bool} {Q : Landing → Reader → Prop} {r q : Reader}
    {comments : List Comment} (hq : q = (r.setQueue []).peeked .keyword)
    (hcomments : comments = r.stream.pending.map Comment.ofToken)
    (hended : ((r.setQueue []).next .keyword).token.kind = .eof → Q (.ended comments) q)
    (hskipped : Q .skipped (q.next .plain))
    (hversion : first = true → Sat version q (fun v r' => Q (.version comments v) r') fun _ => True)
    (helement : ∀ p, Sat (declaration opts (body opts) p) q
      (fun e r' => Q (.element comments e) r') fun _ => True) :
    Sat (fileNext opts first) r Q fun _ => True := by
  subst hq hcomments
  refine sat_run_bind (run_pending r) (sat_run_bind (run_setPending [] r)
    (sat_run_bind (run_peeked .keyword _) ?_))
  split
  · next hk => exact sat_pure (hended hk)
  · exact sat_run_bind (run_next .plain _) (sat_pure hskipped)
  · split
    · next hfirst => exact (hversion hfirst).bind fun _ _ h => sat_pure h
    · exact (sat_trivial _ _).bind fun _ _ _ => reject_sat trivial
  · split
    · exact (sat_trivial _ _).bind fun _ _ _ => reject_sat trivial
    · exact (helement _).bind fun _ _ h => sat_pure h

/-- Whether nothing has been read into a file. -/
def isFresh (f : File) : Bool := f.version.isNone && f.body.isEmpty

theorem fileRound_eq (opts : Options) (f : File) :
    fileRound opts f = fileHead opts (isFresh f) >>= fileTail f := by
  unfold fileRound fileHead fileNext commentsAhead
  simp only [bind_assoc, pure_bind]
  refine bind_congr fun _ => bind_congr fun queue => bind_congr fun _ => bind_congr fun kind => ?_
  split
  · rfl
  · simp only [bind_assoc, pure_bind, fileTail]
  · have hiff : isFresh f = true ↔ ¬(f.version.isSome = true ∨ ¬f.body.isEmpty = true) := by
      simp [isFresh]
    by_cases hf : isFresh f = true
    · rw [if_pos hf, if_neg (hiff.1 hf)]
      simp only [bind_assoc, pure_bind, fileTail]
    · rw [if_neg hf, if_pos (Decidable.not_not.1 (mt hiff.2 hf))]
      simp only [bind_assoc, reject_bind]
  · obtain hp | ⟨p, hp⟩ := Option.eq_none_or_eq_some (Scope.file.production? kind)
    · simp only [hp, bind_assoc, reject_bind]
    · simp only [hp, bind_assoc, pure_bind, fileTail, element_eq]

end Grammar

end ProtoIdl
