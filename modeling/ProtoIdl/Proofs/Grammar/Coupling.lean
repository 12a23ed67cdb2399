import ProtoIdl.Proofs.Grammar.Landed
import ProtoIdl.Proofs.Token.Crossing
/-!
# Two runs of a reader

A `Coupling` relates the readers of two runs of the same grammar, one on the left and one on the
right, whose places differ by `move`. The right run has to follow the left one as long as the left one
succeeds and is not lost: `lost` is an invariant of the left run from which it does not come back, and
`fails` says what may be said of a failure on the left. `Coupling.Lawful` lists what reading a single
token has to keep.

Usually comments and their order are the same on both sides, and there are rounds enough on the right.
In a `loose` coupling no comments are queued, so their order does not matter, and the right run may
run out of rounds.

The right run follows under a mode that is quiet. A token that was read under another mode is followed
unless it is illegal, and a string among them is not to be put back: strings and malformed lexemes may
reach into what the two texts do not have in common.

`Reading.Couples P b b' φ x y` says that `y` follows `x`; its answer is that of `x` changed by `φ`. The
flags tell whether the current tokens correspond, before and behind the step.
-/
namespace ProtoIdl

theorem Mode.isQuiet_iff {m : Mode} :
    m.isQuiet = true ↔ m.strings = false ∧ m.numbers = false ∧ m.comments = false := by
  simp [isQuiet, and_assoc]

/-- Under a quiet mode what is no token does not start as a word does. -/
theorem Reader.Stands.text_ne {m : Mode} {r : Reader} {v : List Char} (h : r.Stands)
    (hm : m.isQuiet = true) (hk : (r.next m).token.kind = .illegal)
    (hv : v.head?.any Text.isIdentStart = true) : (r.next m).token.text ≠ String.ofList v := by
  obtain ⟨hs, -, hc⟩ := Mode.isQuiet_iff.1 hm
  obtain ⟨t, ts, d, e, hf, hr⟩ := h.next_finds hc
  rw [hr] at hk ⊢
  cases hf with
  | token hl ht => exact Scan.token_text_ne hs ht hk hv
  | unclosed hl =>
    obtain ⟨⟨x, more, hrest, -⟩, ht, -⟩ := hl.unclosed_eq
    intro htext
    have heq : t.text = String.ofList v := htext
    rw [ht, hrest] at heq
    obtain rfl := String.ofList_injective heq
    cases hv

/-- A relation between the readers of two runs. -/
structure Coupling where
  /-- The place on the right of a place on the left. -/
  move : Position → Position
  /-- The readers stand at the same place; the flag tells whether their current tokens correspond. -/
  rel : Bool → Reader → Reader → Prop
  /-- The left run has come to what is not on the right. -/
  lost : Invariant
  /-- What holds of a failure on the left and of the reader it leaves. -/
  fails : Failure → Reader → Prop
  /-- The texts may differ in the order of their places and in length. -/
  loose : Prop := False

namespace Coupling

/-- Both runs have just read the same token. It may be kept, unless it is illegal, and put back. -/
structure Matched (P : Coupling) (b : Bool) (r r' : Reader) : Prop where
  token : r'.token = r.token.move P.move
  keep : r.token.kind ≠ .illegal → P.rel true r r'
  putBack : ∃ q q', r.putBack = .ok q ∧ r'.putBack = .ok q' ∧ P.rel b q q'

/-- What a relation between readers keeps. -/
structure Lawful (P : Coupling) : Prop where
  offset_lt (p q : Position) : ¬ P.loose →
    ((P.move p).offset < (P.move q).offset ↔ p.offset < q.offset)
  line_lt (p q : Position) : ¬ P.loose → ((P.move p).line < (P.move q).line ↔ p.line < q.line)
  relax {r r' : Reader} : P.rel true r r' → P.rel false r r'
  stands {b : Bool} {r r' : Reader} : P.rel b r r' → r.Stands
  rounds {b : Bool} {r r' : Reader} : P.rel b r r' → P.loose ∨ r.rounds ≤ r'.rounds
  token {r r' : Reader} : P.rel true r r' → r'.token = r.token.move P.move
  pending {b : Bool} {r r' : Reader} : P.rel b r r' →
    r'.stream.pending = r.stream.pending.map (Token.move P.move)
  bare {b : Bool} {r r' : Reader} : P.loose → P.rel b r r' → r.stream.pending = []
  setPending {b : Bool} {r r' : Reader} (ts : List Token) : (P.loose → ts = []) → P.rel b r r' →
    P.rel b { r with stream := { r.stream with pending := ts } }
      { r' with stream := { r'.stream with pending := ts.map (Token.move P.move) } }
  next {b : Bool} {r r' : Reader} {m : Mode} : m.comments = false → P.rel b r r' →
    (m.isQuiet = true ∨ (r.next m).token.kind ≠ .illegal ∧ (r.next m).token.kind ≠ .stringLit) →
    P.lost.fresh (r.next m) ∨ P.Matched b (r.next m) (r'.next m)
  string {b : Bool} {r r' : Reader} {m : Mode} : m.comments = false → P.rel b r r' →
    (r.next m).token.kind = .stringLit →
    P.lost.holds (r.next m) ∨ P.rel true (r.next m) (r'.next m)
  refused {b : Bool} {r r' : Reader} {m : Mode} (expected : String) : m.comments = false →
    P.rel b r r' → P.fails ((r.next m).unexpected expected) (r.next m)
  outOfRounds (r : Reader) : P.fails .outOfRounds r
  loose_fails (e : Failure) (r : Reader) : P.loose → P.fails e r
  queueless : P.lost.Queueless
  lost_unexpected {r : Reader} (expected : String) : P.lost.holds r →
    P.lost.failure (r.unexpected expected)
  lost_fails {e : Failure} (r : Reader) : P.lost.failure e → P.fails e r

variable {P : Coupling} {b : Bool} {r r' : Reader}

theorem Lawful.line_eq (hP : P.Lawful) (hl : ¬ P.loose) (p q : Position) :
    (P.move p).line = (P.move q).line ↔ p.line = q.line := by
  have h := hP.line_lt p q hl
  have h' := hP.line_lt q p hl
  omega

theorem Lawful.relax_to (hP : P.Lawful) (h : P.rel true r r') : P.rel b r r' := by
  cases b with
  | true => exact h
  | false => exact hP.relax h

/-- How a step ends on the right, by how it ends on the left. -/
def Outcome {α β : Type} (P : Coupling) (b : Bool) (φ : α → β) :
    EStateM.Result Failure Reader α → EStateM.Result Failure Reader β → Prop
  | .ok a r, res => P.lost.holds r ∨ (∃ r', res = .ok (φ a) r' ∧ P.rel b r r') ∨
      P.loose ∧ ∃ r', res = .error .outOfRounds r'
  | .error e r, _ => P.fails e r

/-- A step that goes well on the left, where it does not get lost, goes well on the right. -/
theorem Outcome.followed {α β : Type} {φ : α → β} {a : α} {res : EStateM.Result Failure Reader β}
    (hl : ¬ P.loose) (hlost : ¬ P.lost.holds r) (h : P.Outcome b φ (.ok a r) res) :
    ∃ r', res = .ok (φ a) r' ∧ P.rel b r r' :=
  (h.resolve_left hlost).resolve_right fun hloose => hl hloose.1

end Coupling

namespace Reading

open Coupling

variable {α β γ δ σ τ : Type} {P : Coupling} {b b₁ b₂ : Bool} {m : Mode} {k : Kind}

/-- The step `y` on the right follows the step `x` on the left. -/
def Couples (P : Coupling) (b b₁ : Bool) (φ : α → β) (x : Reading α) (y : Reading β) : Prop :=
  Keeps P.lost x ∧ ∀ r r', P.rel b r r' → P.Outcome b₁ φ (x r) (y r')

/-- The same directly after a token of the kind `k` was read under the mode, which may be put back
unless it is a string. An illegal token is spoken of under quiet modes only. -/
structure CouplesFresh (P : Coupling) (m : Mode) (k : Kind) (b b₁ : Bool) (φ : α → β) (x : Reading α)
    (y : Reading β) : Prop where
  heeds : Heeds P.lost x
  keeps : m.isQuiet = false → k = .stringLit → Keeps P.lost x
  outcome : m.isQuiet = true ∨ k ≠ .illegal → m.comments = false → ∀ r r', P.rel b r r' →
    (r.next m).token.kind = k → P.Outcome b₁ φ (x (r.next m)) (y (r'.next m))

/-- The same where a token of the kind `k` is known to come next. -/
def CouplesAhead (P : Coupling) (k : Kind) (b b₁ : Bool) (φ : α → β) (x : Reading α)
    (y : Reading β) : Prop :=
  Keeps P.lost x ∧ ∀ r r', P.rel b r r' →
    (∀ d, k = .delimiter d → (r.next .plain).token.kind = .delimiter d) →
    P.Outcome b₁ φ (x r) (y r')

/-- How a round ends, with another state and another answer. -/
def Round.map (χ : σ → τ) (φ : α → β) : Round σ α → Round τ β
  | .again s => .again (χ s)
  | .done a => .done (φ a)

/-- The step refuses the current token. -/
def Refuses (x : Reading α) : Prop := ∀ r : Reader, ∃ expected, x r = .error (r.unexpected expected) r

section
variable {φ : α → β} {x : Reading α} {y : Reading β} {res : EStateM.Result Failure Reader β}
  {r r' : Reader} (hP : P.Lawful)
include hP

/-! ## Outcomes -/

theorem outcome_of_sat (h : Sat x r (fun _ r' => P.lost.holds r') P.lost.failure) :
    P.Outcome b φ (x r) res := by
  cases hx : x r with
  | ok a r₁ => exact .inl (h.ok hx)
  | error e r₁ => exact hP.lost_fails r₁ (h.error hx)

/-- Running out of rounds on the right is no concern of a loose coupling. -/
theorem outcome_exhausted (hl : P.loose) {res : EStateM.Result Failure Reader α} (q : Reader) :
    P.Outcome b φ res (.error .outOfRounds q) := by
  cases res with
  | ok a r => exact .inr (.inr ⟨hl, q, rfl⟩)
  | error e r => exact hP.loose_fails e r hl

theorem keeps_reject_bind (expected : String) {f : α → Reading γ} :
    Keeps P.lost (reject expected >>= f) :=
  fun _ hr => (reject_sat (Q := fun _ _ => False) (hP.lost_unexpected expected hr)).bind
    fun _ _ h => h.elim

theorem keeps_reject (expected : String) : Keeps P.lost (reject expected : Reading α) :=
  fun _ hr => reject_sat (hP.lost_unexpected expected hr)

end

/-! ## Rules -/

section
variable {φ : α → β} {ψ : γ → δ}

theorem couples_pure {a : α} {a' : β} (h : φ a = a') : Couples P b b φ (pure a) (pure a') :=
  ⟨keeps_pure a, fun _ r' hr => .inr (.inl ⟨r', h ▸ rfl, hr⟩)⟩

theorem Couples.ahead {x : Reading α} {y : Reading β} (h : Couples P b b₁ φ x y) :
    CouplesAhead P k b b₁ φ x y :=
  ⟨h.1, fun r r' hr _ => h.2 r r' hr⟩

variable (hP : P.Lawful)
include hP

/-- A step in two parts ends as it should if the first part does, and the second part does so from
where the first one leaves it. There `Q` may be made use of. -/
theorem outcome_bind {x : Reading α} {y : Reading β} {f : α → Reading γ} {g : β → Reading δ}
    {Q : α → Reader → Prop} {r r' : Reader} (hx : P.Outcome b₁ φ (x r) (y r'))
    (hQ : Sat x r Q fun _ => True)
    (hkeeps : ∀ a q, Q a q → P.lost.holds q → Sat (f a) q (fun _ q => P.lost.holds q) P.lost.failure)
    (hf : ∀ a q q', Q a q → P.rel b₁ q q' → P.Outcome b₂ ψ (f a q) (g (φ a) q')) :
    P.Outcome b₂ ψ ((x >>= f) r) ((y >>= g) r') := by
  cases hxr : x r with
  | ok a r₁ =>
    have ha := hQ.ok hxr
    rw [hxr] at hx
    rw [run_bind hxr]
    rcases hx with hlost | ⟨r₁', hy, hr₁⟩ | ⟨hl, r₁', hy⟩
    · exact outcome_of_sat hP (hkeeps a r₁ ha hlost)
    · rw [run_bind hy]
      exact hf a r₁ r₁' ha hr₁
    · rw [run_bind_error hy]
      exact outcome_exhausted hP hl r₁'
  | error e r₁ =>
    rw [hxr] at hx
    rw [run_bind_error hxr]
    exact hx

/-- Only answers of which `Q` holds have to be reckoned with. -/
theorem Couples.bind_of {x : Reading α} {y : Reading β} {f : α → Reading γ} {g : β → Reading δ}
    {Q : α → Prop} (hx : Couples P b b₁ φ x y)
    (hQ : ∀ r, Sat x r (fun a _ => Q a) fun _ => True)
    (hf : ∀ a, Q a → Couples P b₁ b₂ ψ (f a) (g (φ a))) :
    Couples P b b₂ ψ (x >>= f) (y >>= g) :=
  ⟨fun r hr => ((hx.1 r hr).and (hQ r)).bind fun a r' h => (hf a h.2).1 r' h.1,
    fun r r' hr => outcome_bind hP (hx.2 r r' hr) (hQ r) (fun a q ha => (hf a ha).1 q)
      fun a q q' ha => (hf a ha).2 q q'⟩

theorem Couples.bind {x : Reading α} {y : Reading β} {f : α → Reading γ} {g : β → Reading δ}
    (hx : Couples P b b₁ φ x y) (hf : ∀ a, Couples P b₁ b₂ ψ (f a) (g (φ a))) :
    Couples P b b₂ ψ (x >>= f) (y >>= g) :=
  hx.bind_of hP (fun r => sat_trivial x r) fun a _ => hf a

theorem Couples.relax {x : Reading α} {y : Reading β} (h : Couples P b true φ x y) :
    Couples P b b₁ φ x y := by
  refine ⟨h.1, fun r r' hr => ?_⟩
  have hout := h.2 r r' hr
  cases hxr : x r with
  | ok a r₁ =>
    rw [hxr] at hout
    exact hout.imp_right (.imp_left fun ⟨r₁', hy, hr₁⟩ => ⟨r₁', hy, hP.relax_to hr₁⟩)
  | error e r₁ =>
    rw [hxr] at hout
    exact hout

theorem couples_outOfRounds {y : Reading β} : Couples P b b₁ φ (throw .outOfRounds) y :=
  ⟨keeps_outOfRounds, fun r _ _ => hP.outOfRounds r⟩

theorem couples_exhausted (hl : P.loose) {x : Reading α} (hx : Keeps P.lost x) :
    Couples P b b₁ φ x (throw .outOfRounds) :=
  ⟨hx, fun _ r' _ => outcome_exhausted hP hl r'⟩

/-- Rounds are counted from the same number or from a larger one on the right. -/
theorem couples_rounds_bind {f : Nat → Reading γ} {g : Nat → Reading δ}
    (hf : ∀ n n', P.loose ∨ n ≤ n' → Couples P b b₁ ψ (f n) (g n')) :
    Couples P b b₁ ψ (do f (← get).rounds) (do g (← get).rounds) :=
  ⟨keeps_get_bind fun r => (hf r.rounds r.rounds (.inr (Nat.le_refl _))).1,
    fun r r' hr => (hf _ _ (hP.rounds hr)).2 r r' hr⟩

theorem couples_text : Couples P true true id text text := by
  refine ⟨keeps_text, fun r r' hr => .inr (.inl ⟨r', ?_, hr⟩)⟩
  have ht := hP.token hr
  change EStateM.Result.ok r'.token.text r' = _
  rw [ht]
  rfl

theorem couples_position : Couples P true true P.move position position := by
  refine ⟨keeps_position, fun r r' hr => .inr (.inl ⟨r', ?_, hr⟩)⟩
  have ht := hP.token hr
  change EStateM.Result.ok r'.token.position r' = _
  rw [ht]
  rfl

theorem couples_pending : Couples P b b (List.map (Token.move P.move)) pending pending := by
  refine ⟨keeps_pending, fun r r' hr => .inr (.inl ⟨r', ?_, hr⟩)⟩
  change EStateM.Result.ok r'.stream.pending r' = _
  rw [hP.pending hr]

/-- What is done with the comments in the queue; a loose coupling has none. -/
theorem couples_pending_bind {f : List Token → Reading γ} {g : List Token → Reading δ}
    (hkeeps : ∀ ts, Keeps P.lost (f ts))
    (hf : ∀ ts, (P.loose → ts = []) → Couples P b b₁ ψ (f ts) (g (ts.map (Token.move P.move)))) :
    Couples P b b₁ ψ (pending >>= f) (pending >>= g) := by
  refine ⟨keeps_pending.bind hkeeps, fun r r' hr => ?_⟩
  change P.Outcome b₁ ψ (f r.stream.pending r) (g r'.stream.pending r')
  rw [hP.pending hr]
  exact (hf _ fun hl => hP.bare hl hr).2 r r' hr

theorem couples_setPending {ts : List Token} (hts : P.loose → ts = []) :
    Couples P b b id (setPending ts) (setPending (ts.map (Token.move P.move))) :=
  ⟨keeps_setPending hP.queueless ts, fun _ _ hr => .inr (.inl ⟨_, rfl, hP.setPending ts hts hr⟩)⟩

/-! ## A token just read -/

namespace CouplesFresh

/-- A token that is no string is matched, and so is every token under a quiet mode. What follows a
string may come to be lost. -/
theorem of_cases {x : Reading α} {y : Reading β} (heeds : Heeds P.lost x)
    (keeps : m.isQuiet = false → k = .stringLit → Keeps P.lost x)
    (matched : m.comments = false → m.isQuiet = true ∨ k ≠ .illegal → ∀ r r', P.rel b r r' →
      (r.next m).token.kind = k → P.Matched b (r.next m) (r'.next m) →
      P.Outcome b₁ φ (x (r.next m)) (y (r'.next m)))
    (string : m.comments = false → k = .stringLit → m.isQuiet = false → ∀ r r', P.rel b r r' →
      (r.next m).token.kind = k → P.rel true (r.next m) (r'.next m) →
      P.Outcome b₁ φ (x (r.next m)) (y (r'.next m))) : CouplesFresh P m k b b₁ φ x y := by
  refine ⟨heeds, keeps, fun hq hm r r' hr hkind => ?_⟩
  by_cases hk : m.isQuiet = false ∧ k = .stringLit
  · rcases hP.string hm hr (hkind.trans hk.2) with hlost | hrel
    · exact outcome_of_sat hP (keeps hk.1 hk.2 _ hlost)
    · exact string hm hk.2 hk.1 r r' hr hkind hrel
  · have hk : m.isQuiet = true ∨ k ≠ .illegal ∧ k ≠ .stringLit := by
      rcases hq with hq | hq
      · exact .inl hq
      · rcases hm' : m.isQuiet with _ | _
        · exact .inr ⟨hq, fun h => hk ⟨hm', h⟩⟩
        · exact .inl rfl
    rcases hP.next hm hr (hkind ▸ hk) with hlost | hmatched
    · exact outcome_of_sat hP (heeds _ hlost)
    · exact matched hm hq r r' hr hkind hmatched

theorem keep {x : Reading α} {y : Reading β} (hk : k ≠ .illegal) (h : Couples P true b₁ φ x y) :
    CouplesFresh P m k b b₁ φ x y :=
  of_cases hP h.1.heeds (fun _ _ => h.1)
    (fun _ _ _ _ _ hkind hmatched => h.2 _ _ (hmatched.keep (hkind ▸ hk)))
    fun _ _ _ _ _ _ _ hrel => h.2 _ _ hrel

theorem putBack_bind {f : Unit → Reading γ} {g : Unit → Reading δ}
    (hk : m.isQuiet = true ∨ k ≠ .stringLit) (h : Couples P b b₁ ψ (f ()) (g ())) :
    CouplesFresh P m k b b₁ ψ (putBack >>= f) (putBack >>= g) := by
  have hno {q : Prop} (hm : m.isQuiet = false) (hs : k = .stringLit) : q := by
    rcases hk with hk | hk
    · rw [hm] at hk
      cases hk
    · exact absurd hs hk
  refine of_cases hP (heeds_putBack_bind fun _ => h.1) (fun hm hs => hno hm hs)
    (fun _ _ r r' _ _ hmatched => ?_) fun _ hs hm => hno hm hs
  obtain ⟨q, q', hback, hback', hqq⟩ := hmatched.putBack
  rw [run_bind (run_putBack hback), run_bind (run_putBack hback')]
  exact h.2 q q' hqq

theorem reject {y : Reading β} (expected : String) :
    CouplesFresh P m k b b₁ φ (Reading.reject expected) y :=
  ⟨heeds_reject expected, fun _ _ => keeps_reject hP expected,
    fun _ hm _ _ hr _ => hP.refused expected hm hr⟩

theorem reject_bind {f : α → Reading γ} {y : Reading δ} (expected : String) :
    CouplesFresh P m k b b₁ ψ (Reading.reject expected >>= f) y :=
  ⟨heeds_reject_bind expected, fun _ _ => keeps_reject_bind hP expected,
    fun _ hm _ _ hr _ => hP.refused expected hm hr⟩

/-- What is done with the text of the token, if it is known to be one of `W`. -/
theorem text_bind_of {f : String → Reading γ} {g : String → Reading δ} {W : String → Prop}
    (hW : ∀ r r', P.rel b r r' → (r.next m).token.kind = k → W (r.next m).token.text)
    (heeds : ∀ w, Heeds P.lost (f w))
    (keeps : m.isQuiet = false → k = .stringLit → ∀ w, Keeps P.lost (f w))
    (hf : ∀ w, W w → CouplesFresh P m k b b₁ ψ (f w) (g w)) :
    CouplesFresh P m k b b₁ ψ (text >>= f) (text >>= g) := by
  have hrun {r r' : Reader} (ht : r'.token = r.token.move P.move)
      (h : P.Outcome b₁ ψ (f r.token.text r) (g r.token.text r')) :
      P.Outcome b₁ ψ ((text >>= f) r) ((text >>= g) r') := by
    change P.Outcome b₁ ψ (f r.token.text r) (g r'.token.text r')
    rwa [ht]
  refine of_cases hP (heeds_text_bind heeds) (fun hm hs => keeps_text.bind (keeps hm hs))
    (fun hm hq r r' hr hkind hmatched => hrun hmatched.token ?_)
    fun hm hs _ r r' hr hkind hrel => hrun (hP.token hrel) ?_
  · exact (hf _ (hW r r' hr hkind)).outcome hq hm r r' hr hkind
  · exact (hf _ (hW r r' hr hkind)).outcome (.inr (hs ▸ nofun)) hm r r' hr hkind

theorem text_bind {f : String → Reading γ} {g : String → Reading δ}
    (hf : ∀ w, CouplesFresh P m k b b₁ ψ (f w) (g w)) :
    CouplesFresh P m k b b₁ ψ (text >>= f) (text >>= g) :=
  text_bind_of hP (W := fun _ => True) (fun _ _ _ _ => trivial) (fun w => (hf w).heeds)
    (fun hm hs w => (hf w).keeps hm hs) fun w _ => hf w

theorem position_bind {f : Position → Reading γ} {g : Position → Reading δ}
    (hf : ∀ p, CouplesFresh P m k b b₁ ψ (f p) (g (P.move p))) :
    CouplesFresh P m k b b₁ ψ (position >>= f) (position >>= g) := by
  have hrun {r r' : Reader} (ht : r'.token = r.token.move P.move)
      (h : P.Outcome b₁ ψ (f r.token.position r) (g (P.move r.token.position) r')) :
      P.Outcome b₁ ψ ((position >>= f) r) ((position >>= g) r') := by
    change P.Outcome b₁ ψ (f r.token.position r) (g r'.token.position r')
    rwa [ht]
  exact of_cases hP (heeds_position_bind fun p => (hf p).heeds)
    (fun hm hs => keeps_position.bind fun p => (hf p).keeps hm hs)
    (fun hm hq r r' hr hkind hmatched =>
      hrun hmatched.token ((hf _).outcome hq hm r r' hr hkind))
    fun hm hs _ r r' hr hkind hrel =>
      hrun (hP.token hrel) ((hf _).outcome (.inr (hs ▸ nofun)) hm r r' hr hkind)

/-- A certain word is no illegal token, so it may be kept. -/
theorem word_bind {f : String → Reading γ} {g : String → Reading δ} {v : List Char}
    (hm : m.isQuiet = true) (hv : v.head?.any Text.isIdentStart = true)
    (hsame : Couples P true b₁ ψ (f (String.ofList v)) (g (String.ofList v)))
    (hother : ∀ w ≠ String.ofList v, CouplesFresh P m k b b₁ ψ (f w) (g w)) :
    CouplesFresh P m k b b₁ ψ (text >>= f) (text >>= g) := by
  by_cases hk : k = .illegal
  · refine text_bind_of hP (W := (· ≠ String.ofList v)) (fun r r' hr hkind => ?_) (fun w => ?_)
      (fun hq => absurd hm (by rw [hq]; nofun)) hother
    · exact (hP.stands hr).text_ne hm (hkind.trans hk) hv
    · by_cases hw : w = String.ofList v
      · exact hw ▸ hsame.1.heeds
      · exact (hother w hw).heeds
  · refine text_bind hP fun w => ?_
    by_cases hw : w = String.ofList v
    · exact hw ▸ keep hP hk hsame
    · exact hother w hw

end CouplesFresh

/-- A token that is read. An illegal one under a mode that is not quiet has to be refused. -/
theorem couples_next_bind {f : Kind → Reading γ} {g : Kind → Reading δ} (hm : m.comments = false)
    (hill : m.isQuiet = true ∨ Refuses (f .illegal)) (hf : ∀ k, CouplesFresh P m k b b₁ ψ (f k) (g k)) :
    Couples P b b₁ ψ (next m >>= f) (next m >>= g) := by
  refine ⟨keeps_next_bind hm fun k => (hf k).heeds, fun r r' hr => ?_⟩
  rw [run_bind (run_next m r), run_bind (run_next m r')]
  have hsame (hq : m.isQuiet = true ∨ (r.next m).token.kind ≠ .illegal)
      (ht : (r'.next m).token = (r.next m).token.move P.move) :
      P.Outcome b₁ ψ (f (r.next m).token.kind (r.next m)) (g (r'.next m).token.kind (r'.next m)) := by
    rw [ht, Token.kind_move]
    exact (hf _).outcome hq hm r r' hr rfl
  by_cases hq : m.isQuiet = true
  · rcases hP.next hm hr (.inl hq) with hlost | hmatched
    · exact outcome_of_sat hP ((hf _).heeds _ hlost)
    · exact hsame (.inl hq) hmatched.token
  by_cases hi : (r.next m).token.kind = .illegal
  · obtain ⟨expected, hrefuses⟩ := hill.resolve_left hq (r.next m)
    rw [hi, hrefuses]
    exact hP.refused expected hm hr
  by_cases hs : (r.next m).token.kind = .stringLit
  · rcases hP.string hm hr hs with hlost | hrel
    · exact outcome_of_sat hP ((hf _).keeps (Bool.eq_false_iff.2 hq) hs _ hlost)
    · exact hsame (.inr hi) (hP.token hrel)
  · rcases hP.next hm hr (.inr ⟨hi, hs⟩) with hlost | hmatched
    · exact outcome_of_sat hP ((hf _).heeds _ hlost)
    · exact hsame (.inr hi) hmatched.token

theorem couples_expect (hm : m.comments = false) (hk : k ≠ .illegal) (expected : String) :
    Couples P b true id (expect m k expected) (expect m k expected) := by
  refine couples_next_bind hP hm (.inr fun r => ⟨expected, ?_⟩) fun kind => ?_
  · rw [if_neg hk.symm]
    rfl
  · by_cases hkind : kind = k
    · rw [if_pos hkind]
      exact .keep hP (hkind ▸ hk) (couples_text hP)
    · rw [if_neg hkind]
      exact .reject hP expected

theorem couples_expectDelimiter (d : Delimiter) (expected : String) :
    Couples P b true id (expectDelimiter d expected) (expectDelimiter d expected) :=
  (couples_expect hP (k := .delimiter d) rfl nofun expected).bind hP fun _ => couples_pure rfl

theorem couples_expectKeyword (k : Keyword) :
    Couples P b true P.move (expectKeyword k) (expectKeyword k) :=
  (couples_expect hP (k := .keyword k) rfl nofun _).bind hP fun _ => couples_position hP

theorem couples_expectIdent (expected : String) :
    Couples P b true id (expectIdent expected) (expectIdent expected) :=
  couples_expect hP (k := .ident) rfl nofun expected

theorem couples_accept_bind (d : Delimiter) {f : Bool → Reading γ} {g : Bool → Reading δ}
    (hyes : Couples P true b₁ ψ (f true) (g true)) (hno : Couples P b b₁ ψ (f false) (g false)) :
    Couples P b b₁ ψ (accept d >>= f) (accept d >>= g) := by
  have haccept {ε : Type} (f : Bool → Reading ε) : accept d >>= f =
      (next .plain >>= fun k => if k = .delimiter d then f true else putBack >>= fun _ => f false) := by
    simp only [accept, bind_assoc]
    refine bind_congr fun k => ?_
    by_cases hk : k = .delimiter d
    · rw [if_pos hk, if_pos hk, pure_bind]
    · rw [if_neg hk, if_neg hk, bind_assoc]
      rfl
  rw [haccept, haccept]
  refine couples_next_bind hP rfl (.inl rfl) fun kind => ?_
  by_cases hkind : kind = .delimiter d
  · rw [if_pos hkind, if_pos hkind]
    exact .keep hP (hkind ▸ nofun) hyes
  · rw [if_neg hkind, if_neg hkind]
    exact .putBack_bind hP (.inl rfl) hno

theorem couples_optionally (k : Keyword) {f : Option Position → Reading γ}
    {g : Option Position → Reading δ} (hf : ∀ b p, Couples P b b₁ ψ (f p) (g (p.map P.move))) :
    Couples P b b₁ ψ (optionally k f) (optionally k g) := by
  refine couples_next_bind hP rfl (.inl rfl) fun kind => .position_bind hP fun first => ?_
  by_cases hkind : kind = .keyword k
  · rw [if_pos hkind, if_pos hkind]
    exact .keep hP (hkind ▸ nofun) (hf true (some first))
  · rw [if_neg hkind, if_neg hkind]
    exact .putBack_bind hP (.inl rfl) (hf b none)

/-! ## A token looked at -/

/-- A delimiter that was looked at is the next token under any mode without keywords. -/
theorem couples_peek_bind {f : Kind → Reading γ} {g : Kind → Reading δ}
    (hm : m = .plain ∨ m = .keyword) (hf : ∀ k, CouplesAhead P k b b₁ ψ (f k) (g k)) :
    Couples P b b₁ ψ (peek m >>= f) (peek m >>= g) := by
  have hc : m.comments = false := by rcases hm with rfl | rfl <;> rfl
  have hq : m.isQuiet = true := by rcases hm with rfl | rfl <;> rfl
  simp only [peek, bind_assoc, pure_bind]
  refine couples_next_bind hP hc (.inl hq) fun kind => .of_cases hP
    (heeds_putBack_bind fun _ => (hf kind).1) (fun h => absurd (h.symm.trans hq) Bool.false_ne_true)
    (fun _ _ r r' hr hkind hmatched => ?_) fun _ _ h => absurd (h.symm.trans hq) Bool.false_ne_true
  obtain ⟨q, q', hback, hback', hqq⟩ := hmatched.putBack
  rw [run_bind (run_putBack hback), run_bind (run_putBack hback')]
  exact (hf kind).2 q q' hqq fun d hd => (hP.stands hr).next_of_peek hm hback (hkind.trans hd)

/-- A delimiter known to come next is read and kept. -/
theorem ahead_next_bind (d : Delimiter) {x : Reading α} {y : Reading β} {φ : α → β}
    (h : Couples P true b₁ φ x y) :
    CouplesAhead P (.delimiter d) b b₁ φ (next .plain >>= fun _ => x) (next .plain >>= fun _ => y) := by
  refine ⟨(keeps_next rfl).bind fun _ => h.1, fun r r' hr hd => ?_⟩
  rw [run_bind (run_next .plain r), run_bind (run_next .plain r')]
  rcases hP.next (m := .plain) rfl hr (.inl rfl) with hlost | hmatched
  · exact outcome_of_sat hP (h.1.heeds _ hlost)
  · exact h.2 _ _ (hmatched.keep (hd d rfl ▸ nofun))

/-! ## Loops -/

/-- A loop follows a loop whose rounds it follows, with at least as many rounds unless it may run out
of them. -/
theorem couples_repeatAtMost {round : σ → Reading (Round σ α)} {round' : τ → Reading (Round τ β)}
    {χ : σ → τ} {φ : α → β} (h : ∀ s, Couples P b b (Round.map χ φ) (round s) (round' (χ s)))
    {n n' : Nat} (hn : P.loose ∨ n ≤ n') (s : σ) :
    Couples P b b φ (repeatAtMost round n s) (repeatAtMost round' n' (χ s)) := by
  induction n generalizing n' s with
  | zero => exact couples_outOfRounds hP
  | succ n ih =>
    cases n' with
    | zero =>
      have hkeeps := keeps_repeatAtMost (fun s => (h s).1) (n + 1) s
      exact couples_exhausted hP (hn.resolve_right (Nat.not_succ_le_zero n)) hkeeps
    | succ n' =>
      refine (h s).bind hP fun a => ?_
      cases a with
      | again s => exact ih (hn.imp_right Nat.le_of_succ_le_succ) s
      | done a => exact couples_pure rfl

theorem couples_repeatFrom {round : σ → Reading (Round σ α)} {round' : τ → Reading (Round τ β)}
    {χ : σ → τ} {φ : α → β} (h : ∀ s, Couples P b b (Round.map χ φ) (round s) (round' (χ s)))
    (s : σ) : Couples P b b φ (repeatFrom s round) (repeatFrom (χ s) round') :=
  couples_rounds_bind hP fun _ _ hn => couples_repeatAtMost hP h hn s

end

end Reading

end ProtoIdl
