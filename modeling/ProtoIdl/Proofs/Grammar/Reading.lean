import ProtoIdl.Grammar.Reader
/-!
# What a step of reading ends in

`Reading.Sat x r Q E` says of the step `x` begun at the reader `r`: if it succeeds, `Q` holds of its
answer and of the reader it leaves, and if it fails, `E` holds of its failure. The rules follow the
way readers are built: sequences, and loops with an invariant (`Reading.sat_repeatFrom`).
-/
namespace ProtoIdl.Reading

variable {α β σ : Type}

/-! ## Running a step -/

section
variable {x : Reading α} {f : α → Reading β} {a : α} {e : Failure} {r r' : Reader}

theorem run_bind (h : x r = .ok a r') : (x >>= f) r = f a r' := by
  simp only [Bind.bind, EStateM.bind, h]

theorem run_bind_error (h : x r = .error e r') : (x >>= f) r = .error e r' := by
  simp only [Bind.bind, EStateM.bind, h]

theorem run_map (f : α → β) (x : Reading α) (r : Reader) : (f <$> x) r =
    match x r with
    | .ok a r' => .ok (f a) r'
    | .error e r' => .error e r' := by
  rw [map_eq_pure_bind]
  cases h : x r with
  | ok a r' => exact run_bind h
  | error e r' => exact run_bind_error h

/-- What a step answers, it answers with some reader left. -/
theorem exists_run {x : Reading α} {r : Reader} {a : α} (h : x.run' r = some a) :
    ∃ r', x r = .ok a r' := by
  unfold EStateM.run' at h
  split at h
  · next b r' hrun =>
    cases h
    exact ⟨r', hrun⟩
  · cases h

theorem run_get (r : Reader) : (get : Reading Reader) r = .ok r r := rfl

theorem run_next (mode : Mode) (r : Reader) :
    next mode r = .ok (r.next mode).token.kind (r.next mode) := rfl

theorem run_putBack (h : r.putBack = .ok r') : putBack r = .ok () r' := by
  rw [putBack, run_bind (run_get r), h]
  rfl

theorem run_putBack_error {m : Misuse} (h : r.putBack = .error m) :
    putBack r = .error (.misuse m) r := by
  rw [putBack, run_bind (run_get r), h]
  rfl

theorem run_peek {mode : Mode} (h : (r.next mode).putBack = .ok r') :
    peek mode r = .ok (r.next mode).token.kind r' := by
  rw [peek, run_bind (run_next mode r), run_bind (run_putBack h)]
  rfl

end

/-! ## What a step ends in -/

/-- The answer and the reader left satisfy `Q`, or the failure satisfies `E`. -/
def Sat (x : Reading α) (r : Reader) (Q : α → Reader → Prop) (E : Failure → Prop) : Prop :=
  match x r with
  | .ok a r' => Q a r'
  | .error e _ => E e

section
variable {x : Reading α} {r : Reader} {P Q : α → Reader → Prop} {E : Failure → Prop}

theorem Sat.mono (h : Sat x r P E) (hq : ∀ a r, P a r → Q a r) : Sat x r Q E := by
  unfold Sat at *
  split
  · next a r' hx => exact hq a r' (by simpa only [hx] using h)
  · next e _ hx => simpa only [hx] using h

theorem Sat.mono_error {E' : Failure → Prop} (h : Sat x r Q E) (he : ∀ e, E e → E' e) :
    Sat x r Q E' := by
  unfold Sat at *
  split
  · next a r' hx => simpa only [hx] using h
  · next e _ hx => exact he e (by simpa only [hx] using h)

theorem Sat.bind {f : α → Reading β} {Q : β → Reader → Prop} (h : Sat x r P E)
    (hf : ∀ a r, P a r → Sat (f a) r Q E) : Sat (x >>= f) r Q E := by
  unfold Sat at h
  simp only [Sat, Bind.bind, EStateM.bind]
  cases hx : x r with
  | ok a r' =>
    rw [hx] at h
    exact hf a r' h
  | error e r' =>
    rw [hx] at h
    exact h

/-- Behind a step that fails nothing counts. -/
theorem Sat.bind_of_fails {f : α → Reading β} {Q : β → Reader → Prop}
    (h : Sat x r (fun _ _ => False) E) : Sat (x >>= f) r Q E :=
  h.bind fun _ _ h => h.elim

theorem Sat.and (h : Sat x r P E) (h' : Sat x r Q fun _ => True) :
    Sat x r (fun a r' => P a r' ∧ Q a r') E := by
  unfold Sat at *
  cases hx : x r with
  | ok a r' =>
    rw [hx] at h h'
    exact ⟨h, h'⟩
  | error e r' =>
    rw [hx] at h
    exact h

/-- Only what the step does at `r` counts. -/
theorem Sat.of_eq {y : Reading α} (h : Sat x r Q E) (hy : y r = x r) : Sat y r Q E := by
  unfold Sat at *
  rw [hy]
  exact h

/-- A step whose first part is known. -/
theorem sat_run_bind {f : α → Reading β} {Q : β → Reader → Prop} {a : α} {r' : Reader}
    (hx : x r = .ok a r') (h : Sat (f a) r' Q E) : Sat (x >>= f) r Q E := by
  unfold Sat at *
  rw [run_bind hx]
  exact h

theorem sat_of_error {e : Failure} {r' : Reader} (hx : x r = .error e r') (h : E e) :
    Sat x r Q E := by
  simpa only [Sat, hx] using h

theorem sat_trivial (x : Reading α) (r : Reader) : Sat x r (fun _ _ => True) fun _ => True := by
  unfold Sat
  split <;> trivial

theorem sat_pure {a : α} (h : Q a r) : Sat (pure a) r Q E := h

theorem sat_pure_bind {a : α} {f : α → Reading β} {Q : β → Reader → Prop}
    (h : Sat (f a) r Q E) : Sat (pure a >>= f) r Q E := h

theorem sat_throw {e : Failure} (h : E e) : Sat (throw e : Reading α) r Q E := h

theorem sat_set {Q : PUnit → Reader → Prop} {r' : Reader} (h : Q ⟨⟩ r') : Sat (set r') r Q E := h

theorem sat_get : Sat get r (fun a r' => a = r ∧ r' = r) E := ⟨rfl, rfl⟩

theorem Sat.ok {a : α} {r' : Reader} (h : Sat x r Q E) (hx : x r = .ok a r') : Q a r' := by
  simpa only [Sat, hx] using h

theorem Sat.error {e : Failure} {r' : Reader} (h : Sat x r Q E) (hx : x r = .error e r') :
    E e := by
  simpa only [Sat, hx] using h

/-- A loop keeps what every round keeps; the last round gives the answer. -/
theorem sat_repeatAtMost {round : σ → Reading (Round σ α)} {I : σ → Reader → Prop}
    (hround : ∀ s r, I s r → Sat (round s) r
      (fun a r' => match a with | .again s' => I s' r' | .done a => Q a r') E)
    (hout : E .outOfRounds) (n : Nat) (s : σ) (h : I s r) : Sat (repeatAtMost round n s) r Q E := by
  induction n generalizing s r with
  | zero => exact sat_throw hout
  | succ n ih =>
    refine (hround s r h).bind ?_
    rintro (s' | a) r' h'
    · exact ih s' h'
    · exact sat_pure h'

theorem sat_repeatFrom {round : σ → Reading (Round σ α)} {I : σ → Reader → Prop} {s : σ}
    (h : I s r)
    (hround : ∀ s r, I s r → Sat (round s) r
      (fun a r' => match a with | .again s' => I s' r' | .done a => Q a r') E)
    (hout : E .outOfRounds) : Sat (repeatFrom s round) r Q E := by
  refine sat_get.bind ?_
  rintro _ _ ⟨rfl, rfl⟩
  exact sat_repeatAtMost hround hout _ s h

end

/-! ## Tokens -/

section
variable {r : Reader} {E : Failure → Prop}

theorem next_sat (mode : Mode) :
    Sat (next mode) r (fun k r' => k = r'.token.kind ∧ r' = r.next mode) E := ⟨rfl, rfl⟩

/-- A token that was just read can be put back; the token before it is current again. -/
theorem putBack_sat (mode : Mode) : Sat putBack (r.next mode)
    (fun _ r' => (r.next mode).putBack = .ok r' ∧ r'.token = r.token ∧ r'.stream =
      { (r.next mode).stream with source := (r.next mode).stream.source.reset, canUnscan := false })
    E := ⟨rfl, rfl, rfl⟩

theorem text_sat : Sat text r (fun w r' => w = r.token.text ∧ r' = r) E := ⟨rfl, rfl⟩

theorem sat_text {Q : String → Reader → Prop} (h : Q r.token.text r) : Sat text r Q E := h

theorem sat_text_bind {α : Type} {f : String → Reading α} {Q : α → Reader → Prop}
    (h : Sat (f r.token.text) r Q E) : Sat (text >>= f) r Q E := h

theorem sat_position_bind {α : Type} {f : Position → Reading α} {Q : α → Reader → Prop}
    (h : Sat (f r.token.position) r Q E) : Sat (position >>= f) r Q E := h

theorem position_sat : Sat position r (fun p r' => p = r.token.position ∧ r' = r) E := ⟨rfl, rfl⟩

theorem pending_sat : Sat pending r (fun ts r' => ts = r.stream.pending ∧ r' = r) E := ⟨rfl, rfl⟩

theorem setPending_sat (ts : List Token) : Sat (setPending ts) r
    (fun _ r' => r' = { r with stream := { r.stream with pending := ts } }) E := rfl

theorem reject_sat {α : Type} {expected : String} {Q : α → Reader → Prop}
    (h : E (r.unexpected expected)) : Sat (reject expected) r Q E := h

/-- A token that was expected is there. -/
theorem expect_sat {mode : Mode} {kind : Kind} (expected : String) (r : Reader) :
    Sat (expect mode kind expected) r (fun _ r' => r'.token.kind = kind) fun _ => True := by
  refine (next_sat mode).bind fun k r' ⟨hk, _⟩ => ?_
  split
  · next h => exact sat_text (hk ▸ h)
  · exact reject_sat trivial

theorem expectKeyword_sat (k : Keyword) (r : Reader) :
    Sat (expectKeyword k) r (fun _ r' => r'.token.kind = .keyword k) fun _ => True :=
  (expect_sat _ r).bind fun _ _ h => sat_position_bind (f := pure) (sat_pure h)

end

-- the rules are all that is used of `Sat` from here on
attribute [irreducible] Sat

end ProtoIdl.Reading
