import ProtoIdl.Proofs.Grammar.Spans
/-!
# Reading ends

On a text without ill-formed octets the characters that are left bound every loop and every nesting.
`Reading.Lasts e n x` says that the step never runs out of rounds where at most `n` characters are
left, and that it goes forward; `Reading.Strides e n x` that it reads a character besides, and
`Reading.Turns e n x` that a round of a loop does so before it is repeated. A step that strides may go
on with one that lasts for less, which is how a block may hold the reader of its own blocks. Main
statements: `Grammar.lasts_file` and the `turns_` lemma of each loop.
-/
namespace ProtoIdl

/-- The reader stands behind `e` in a text without ill-formed octets. At most `n` characters are
left, and fewer than its rounds. -/
structure Reader.Left (e : Cursor) (n : Nat) (r : Reader) : Prop where
  whole : e.ending = none
  reached : e.Reaches r.edge
  left : r.edge.rest.length ≤ n
  rounds : r.edge.rest.length < r.stream.rounds

namespace Reader.Left

variable {e : Cursor} {m n : Nat} {r r' : Reader} {mode : Mode}

theorem edge_whole (h : r.Left e n) : r.edge.ending = none := h.reached.ending_eq.trans h.whole

theorem mono (h : r.Left e m) (hmn : m ≤ n) : r.Left e n :=
  ⟨h.whole, h.reached, Nat.le_trans h.left hmn, h.rounds⟩

/-- What the next token is. -/
theorem finds (h : r.Left e n) (hm : mode.comments = false) : ∃ ts,
    r.edge.Finds mode (r.next mode).token ts (r.next mode).mark (r.next mode).edge := by
  obtain ⟨ts, -, hf⟩ := TokenStream.scan_finds hm r.stream h.edge_whole h.rounds
  exact ⟨ts, hf⟩

/-- Reading goes from one reader to another without a change of the bound on rounds. -/
theorem move (h : r.Left e n) (hr : r.edge.Reaches r'.edge)
    (hrounds : r'.stream.rounds = r.stream.rounds) : r'.Left e n where
  whole := h.whole
  reached := h.reached.trans hr
  left := Nat.le_trans hr.length_le h.left
  rounds := by
    rw [hrounds]
    exact Nat.lt_of_le_of_lt hr.length_le h.rounds

theorem next (h : r.Left e n) (hm : mode.comments = false) : (r.next mode).Left e n := by
  obtain ⟨ts, hf⟩ := h.finds hm
  exact h.move (hf.passes.reaches.trans hf.found.reaches) (rounds_next mode r)

theorem putBack (h : r.Left e n) (hm : mode.comments = false)
    (hr : (r.next mode).putBack = .ok r') : r'.Left e n ∧ r'.edge = (r.next mode).mark := by
  obtain ⟨ts, hf⟩ := h.finds hm
  obtain rfl := Except.ok.inj hr
  exact ⟨h.move hf.passes.reaches (rounds_next mode r), rfl⟩

/-- A token that is not the end of the text has characters. -/
theorem stride (h : r.Left e n) (hm : mode.comments = false)
    (hk : (r.next mode).token.kind ≠ .eof) : ∃ m < n, (r.next mode).Left e m := by
  obtain ⟨ts, hf⟩ := h.finds hm
  have hnext := h.next hm
  refine ⟨(r.next mode).edge.rest.length, ?_, hnext.whole, hnext.reached, Nat.le_refl _,
    hnext.rounds⟩
  cases hf.found with
  | lexed hne hd ht =>
    have hpos := List.length_pos_iff.2 hne
    have hmark := hf.passes.reaches.length_le
    have hedge := hd.length_le
    rw [Cursor.rest_advance, List.length_drop] at hedge
    have := h.left
    omega
  | eof hc hd ht => exact absurd (by rw [ht, Token.make]) hk

/-- There is nothing left of the text where its end is put back. -/
theorem nil_of_next_eof (h : r.Left e n) (hm : mode.comments = false)
    (hk : (r.next mode).token.kind = .eof) : (r.next mode).mark.rest = [] := by
  obtain ⟨ts, hf⟩ := h.finds hm
  cases hf.found with
  | lexed hne hd ht => exact absurd hk ht.ne_eof
  | eof hc hd ht => exact hc

/-- Claiming comments moves nothing. -/
theorem setPending (h : r.Left e n) (ts : List Token) :
    Left e n { r with stream := { r.stream with pending := ts } } :=
  ⟨h.whole, h.reached, h.left, h.rounds⟩

end Reader.Left

namespace Reading

variable {α β σ : Type} {e : Cursor} {m n : Nat}

/-- Where at most `n` characters are left the step goes forward and does not run out of rounds. -/
def Lasts (e : Cursor) (n : Nat) (x : Reading α) : Prop :=
  ∀ m ≤ n, ∀ r : Reader, r.Left e m → Sat x r (fun _ r' => r'.Left e m) (· ≠ .outOfRounds)

/-- The step also reads a character. -/
def Strides (e : Cursor) (n : Nat) (x : Reading α) : Prop :=
  ∀ m ≤ n, ∀ r : Reader, r.Left e m →
    Sat x r (fun _ r' => ∃ k < m, r'.Left e k) (· ≠ .outOfRounds)

/-- The step also reads a character if the loop is to go on. -/
def Turns (e : Cursor) (n : Nat) (x : Reading (Round σ α)) : Prop :=
  ∀ m ≤ n, ∀ r : Reader, r.Left e m → Sat x r (fun a r' => r'.Left e m ∧
    ∀ s, a = .again s → ∃ k < m, r'.Left e k) (· ≠ .outOfRounds)

/-- The step lasts directly after a token was read, which it may put back. -/
def LastsFresh (e : Cursor) (n : Nat) (x : Reading α) : Prop :=
  ∀ m ≤ n, ∀ (r : Reader) (mode : Mode), mode.comments = false → r.Left e m →
    Sat x (r.next mode) (fun _ r' => r'.Left e m) (· ≠ .outOfRounds)

/-- The same of a round. -/
def TurnsFresh (e : Cursor) (n : Nat) (x : Reading (Round σ α)) : Prop :=
  ∀ m ≤ n, ∀ (r : Reader) (mode : Mode), mode.comments = false → r.Left e m →
    Sat x (r.next mode) (fun a r' => r'.Left e m ∧ ∀ s, a = .again s → ∃ k < m, r'.Left e k)
      (· ≠ .outOfRounds)

/-! ## Rules -/

theorem Strides.lasts {x : Reading α} (h : Strides e n x) : Lasts e n x :=
  fun m hm r hr => (h m hm r hr).mono fun _ _ ⟨_, hk, hr'⟩ => hr'.mono (Nat.le_of_lt hk)

theorem Strides.turns {x : Reading (Round σ α)} (h : Strides e n x) : Turns e n x :=
  fun m hm r hr => (h m hm r hr).mono fun _ _ ⟨k, hk, hr'⟩ =>
    ⟨hr'.mono (Nat.le_of_lt hk), fun _ _ => ⟨k, hk, hr'⟩⟩

/-- Whatever the failure, the step goes forward. -/
theorem Lasts.goes {x : Reading α} (h : Lasts e n x) {r : Reader} (hr : r.Left e n) :
    Sat x r (fun _ r' => r'.Left e n) fun _ => True :=
  (h n (Nat.le_refl n) r hr).mono_error fun _ _ => trivial

theorem Lasts.fresh {x : Reading α} (h : Lasts e n x) : LastsFresh e n x :=
  fun m hm _ _ hmode hr => h m hm _ (hr.next hmode)

theorem Turns.fresh {x : Reading (Round σ α)} (h : Turns e n x) : TurnsFresh e n x :=
  fun m hm _ _ hmode hr => h m hm _ (hr.next hmode)

theorem Lasts.bind {x : Reading α} {f : α → Reading β} (hx : Lasts e n x)
    (hf : ∀ a, Lasts e n (f a)) : Lasts e n (x >>= f) :=
  fun m hm r hr => (hx m hm r hr).bind fun a r' hr' => hf a m hm r' hr'

theorem Lasts.bind_strides {x : Reading α} {f : α → Reading β} (hx : Lasts e n x)
    (hf : ∀ a, Strides e n (f a)) : Strides e n (x >>= f) :=
  fun m hm r hr => (hx m hm r hr).bind fun a r' hr' => hf a m hm r' hr'

theorem Lasts.bind_turns {x : Reading α} {f : α → Reading (Round σ β)} (hx : Lasts e n x)
    (hf : ∀ a, Turns e n (f a)) : Turns e n (x >>= f) :=
  fun m hm r hr => (hx m hm r hr).bind fun a r' hr' => hf a m hm r' hr'

/-- Behind a step that strides fewer characters are left. -/
theorem Strides.bind {x : Reading α} {f : α → Reading β} (hx : Strides e n x)
    (hf : ∀ k < n, ∀ a, Lasts e k (f a)) : Strides e n (x >>= f) := by
  intro m hm r hr
  refine (hx m hm r hr).bind ?_
  rintro a r' ⟨k, hk, hr'⟩
  exact (hf k (Nat.lt_of_lt_of_le hk hm) a k (Nat.le_refl k) r' hr').mono
    fun _ _ h => ⟨k, hk, h⟩

theorem lasts_pure (a : α) : Lasts e n (pure a) := fun _ _ _ hr => sat_pure hr

theorem turns_done (a : α) : Turns e n (pure (.done a) : Reading (Round σ α)) :=
  fun _ _ _ hr => sat_pure ⟨hr, nofun⟩

theorem lasts_text : Lasts e n text := fun _ _ _ hr => text_sat.mono fun _ _ h => h.2 ▸ hr

theorem lasts_position : Lasts e n position :=
  fun _ _ _ hr => position_sat.mono fun _ _ h => h.2 ▸ hr

theorem lasts_pending : Lasts e n pending :=
  fun _ _ _ hr => pending_sat.mono fun _ _ h => h.2 ▸ hr

theorem lasts_setPending (ts : List Token) : Lasts e n (setPending ts) :=
  fun _ _ _ hr => (setPending_sat ts).mono fun _ _ h => h ▸ hr.setPending ts

theorem unexpected_ne_outOfRounds (r : Reader) (expected : String) :
    r.unexpected expected ≠ .outOfRounds := by
  unfold Reader.unexpected
  split <;> nofun

theorem lasts_reject (expected : String) : Lasts e n (reject expected : Reading α) :=
  fun _ _ _ _ => reject_sat (unexpected_ne_outOfRounds _ expected)

theorem turns_reject (expected : String) : Turns e n (reject expected : Reading (Round σ α)) :=
  fun _ _ _ _ => reject_sat (unexpected_ne_outOfRounds _ expected)

theorem lasts_reject_bind (expected : String) {f : α → Reading β} :
    Lasts e n (reject expected >>= f) :=
  fun _ _ _ _ => (reject_sat (Q := fun _ _ => False)
    (unexpected_ne_outOfRounds _ expected)).bind fun _ _ h => h.elim

theorem lasts_next_bind {mode : Mode} (hm : mode.comments = false) {f : Kind → Reading β}
    (hf : ∀ k, LastsFresh e n (f k)) : Lasts e n (next mode >>= f) := by
  intro m hmn r hr
  refine (next_sat mode).bind ?_
  rintro k _ ⟨-, rfl⟩
  exact hf k m hmn r mode hm hr

theorem lasts_next {mode : Mode} (hm : mode.comments = false) : Lasts e n (next mode) := by
  intro m hmn r hr
  refine (next_sat mode).mono ?_
  rintro k _ ⟨-, rfl⟩
  exact hr.next hm

/-- A token that is not the end of the text is a character at least. -/
theorem turns_next_bind {mode : Mode} (hm : mode.comments = false)
    {f : Kind → Reading (Round σ α)}
    (hf : ∀ k, TurnsFresh e n (f k) ∨ k ≠ .eof ∧ ∀ i < n, Lasts e i (f k)) :
    Turns e n (next mode >>= f) := by
  intro m hmn r hr
  refine (next_sat mode).bind ?_
  rintro k _ ⟨rfl, rfl⟩
  rcases hf (r.next mode).token.kind with h | ⟨hk, h⟩
  · exact h m hmn r mode hm hr
  · obtain ⟨i, hi, hr'⟩ := hr.stride hm hk
    exact (h i (Nat.lt_of_lt_of_le hi hmn) i (Nat.le_refl i) _ hr').mono fun _ _ h =>
      ⟨h.mono (Nat.le_of_lt hi), fun _ _ => ⟨i, hi, h⟩⟩

theorem fresh_text_bind {f : String → Reading β} (hf : ∀ w, LastsFresh e n (f w)) :
    LastsFresh e n (text >>= f) :=
  fun m hmn r mode hm hr => text_sat.bind fun w _ ⟨_, hr'⟩ => hr' ▸ hf w m hmn r mode hm hr

theorem fresh_position_bind {f : Position → Reading β} (hf : ∀ p, LastsFresh e n (f p)) :
    LastsFresh e n (position >>= f) :=
  fun m hmn r mode hm hr => position_sat.bind fun p _ ⟨_, hr'⟩ => hr' ▸ hf p m hmn r mode hm hr

theorem fresh_putBack_bind {f : Unit → Reading β} (hf : ∀ a, Lasts e n (f a)) :
    LastsFresh e n (putBack >>= f) :=
  fun m hmn _ mode hm hr => (putBack_sat mode).bind fun a _ ⟨hback, _⟩ =>
    hf a m hmn _ (hr.putBack hm hback).1

theorem fresh_putBack_turns {f : Unit → Reading (Round σ α)} (hf : ∀ a, Turns e n (f a)) :
    TurnsFresh e n (putBack >>= f) :=
  fun m hmn _ mode hm hr => (putBack_sat mode).bind fun a _ ⟨hback, _⟩ =>
    hf a m hmn _ (hr.putBack hm hback).1

theorem lasts_peek {mode : Mode} (hm : mode.comments = false) : Lasts e n (peek mode) :=
  lasts_next_bind hm fun k => fresh_putBack_bind fun _ => lasts_pure k

theorem strides_expect {mode : Mode} (hm : mode.comments = false) (kind : Kind)
    (hk : kind ≠ .eof) (expected : String) : Strides e n (expect mode kind expected) := by
  intro m hmn r hr
  refine (next_sat mode).bind ?_
  rintro k _ ⟨rfl, rfl⟩
  split
  · next h =>
    obtain ⟨i, hi, hr'⟩ := hr.stride hm (h ▸ hk)
    exact sat_text ⟨i, hi, hr'⟩
  · exact reject_sat (unexpected_ne_outOfRounds _ _)

theorem strides_expectDelimiter (d : Delimiter) (expected : String) :
    Strides e n (expectDelimiter d expected) :=
  (strides_expect rfl (.delimiter d) nofun expected).bind fun _ _ _ => lasts_pure ()

theorem strides_expectKeyword (k : Keyword) : Strides e n (expectKeyword k) :=
  (strides_expect rfl (.keyword k) nofun k.word).bind fun _ _ _ => lasts_position

theorem strides_expectIdent (expected : String) : Strides e n (expectIdent expected) :=
  strides_expect rfl .ident nofun expected

theorem lasts_accept (d : Delimiter) : Lasts e n (accept d) := by
  refine lasts_next_bind rfl fun k => ?_
  split
  · exact (lasts_pure true).fresh
  · exact fresh_putBack_bind fun _ => lasts_pure false

theorem lasts_optionally (k : Keyword) {f : Option Position → Reading β}
    (hf : ∀ p, Lasts e n (f p)) : Lasts e n (optionally k f) := by
  refine lasts_next_bind rfl fun kind => fresh_position_bind fun first => ?_
  split
  · exact (hf _).fresh
  · exact fresh_putBack_bind fun _ => hf none

theorem strides_optionally (k : Keyword) {f : Option Position → Reading β}
    (hf : ∀ p, Strides e n (f p)) : Strides e n (optionally k f) := by
  intro m hm r hr
  refine (next_sat .keyword).bind ?_
  rintro kind _ ⟨-, rfl⟩
  refine sat_position_bind ?_
  split
  · exact hf _ m hm _ (hr.next rfl)
  · exact (putBack_sat .keyword).bind fun _ r' ⟨hback, _⟩ => hf none m hm r' (hr.putBack rfl hback).1

/-- A token looked at is found again under the same mode. The end of the tokens is the end of the
text, under every mode. -/
theorem peek_left {mode : Mode} (hm : mode.comments = false) {r : Reader} (hr : r.Left e m) :
    Sat (peek mode) r (fun k r' => r'.Left e m ∧ (r'.next mode).token.kind = k ∧
      (k = .eof → r'.edge.rest = []) ∧ ∀ mode' : Mode, mode'.comments = false →
        (r'.next mode').token.kind = .eof → k = .eof) (· ≠ .outOfRounds) := by
  refine (next_sat mode).bind ?_
  rintro k _ ⟨rfl, rfl⟩
  refine (putBack_sat mode).bind fun _ r' ⟨hback, _⟩ => ?_
  obtain ⟨hr', hedge⟩ := hr.putBack hm hback
  obtain ⟨ts, hf⟩ := hr.finds hm
  have hagain : (r'.next mode).token = (r.next mode).token := by
    obtain ⟨ts', hf'⟩ := hr'.finds hm
    rw [hedge] at hf'
    exact ((hf.at_mark hr.edge_whole).unique hf').1.symm
  refine sat_pure ⟨hr', by rw [hagain], fun hk => ?_, fun mode' hm' hk' => ?_⟩
  · rw [hedge]
    exact hr.nil_of_next_eof hm hk
  · obtain ⟨ts', hf'⟩ := hr'.finds hm'
    have hnil := hr'.nil_of_next_eof hm' hk'
    rw [hedge] at hf'
    obtain ⟨-, hmark, -⟩ := hf.again hr.edge_whole hf'
    rw [hmark] at hnil
    -- the same place cannot both have characters and be the end
    cases hf.found with
    | lexed hne hd ht => exact absurd hnil hne
    | eof hc hd ht => rw [ht, Token.make]

/-- A token looked at that is not the end of the text is read again as a token. -/
theorem turns_peek_bind {mode : Mode} (hm : mode.comments = false)
    {f : Kind → Reading (Round σ α)} (hf : ∀ k, Turns e n (f k) ∨
      k ≠ .eof ∧ ∃ s, f k = do let _ ← next .plain; return .again s) :
    Turns e n (peek mode >>= f) := by
  intro m hmn r hr
  refine (peek_left hm hr).bind ?_
  rintro k r' ⟨hr', -, -, heof⟩
  rcases hf k with h | ⟨hk, s, h⟩
  · exact h m hmn r' hr'
  · rw [h]
    refine (next_sat .plain).bind ?_
    rintro _ _ ⟨-, rfl⟩
    exact sat_pure ⟨hr'.next rfl, fun _ _ => hr'.stride rfl fun hplain => hk (heof _ rfl hplain)⟩

/-! ## Loops -/

/-- A loop whose rounds read a character each has rounds enough. -/
theorem lasts_repeatAtMost {round : σ → Reading (Round σ α)} (h : ∀ s, Turns e n (round s))
    (rounds : Nat) (s : σ) {r : Reader} (hm : m ≤ n) (hr : r.Left e m)
    (hrounds : m < rounds) :
    Sat (repeatAtMost round rounds s) r (fun _ r' => r'.Left e m) (· ≠ .outOfRounds) := by
  induction rounds generalizing m s r with
  | zero => omega
  | succ rounds ih =>
    refine (h s m hm r hr).bind ?_
    rintro (s' | a) r' ⟨hr', hagain⟩
    · obtain ⟨k, hk, hr'⟩ := hagain s' rfl
      exact (ih s' (by omega) hr' (by omega)).mono fun _ _ h => h.mono (by omega)
    · exact sat_pure hr'

/-- There are more rounds than characters left, and as many levels. -/
theorem lasts_rounds {f : Nat → Reading α}
    (hf : ∀ (m rounds : Nat) (r : Reader), m ≤ n → r.Left e m → m < rounds →
      Sat (f rounds) r (fun _ r' => r'.Left e m) (· ≠ .outOfRounds)) :
    Lasts e n (get >>= fun r => f r.rounds) := by
  intro m hm r hr
  refine sat_get.bind ?_
  rintro _ r ⟨rfl, rfl⟩
  have hleft : Reader.Left e r.edge.rest.length r :=
    ⟨hr.whole, hr.reached, Nat.le_refl _, hr.rounds⟩
  refine (hf _ r.rounds r (Nat.le_trans hr.left hm) hleft ?_).mono fun _ _ h => h.mono hr.left
  have := hr.rounds
  rw [Reader.rounds]
  omega

theorem lasts_repeatFrom {round : σ → Reading (Round σ α)} (h : ∀ s, Turns e n (round s)) (s : σ) :
    Lasts e n (repeatFrom s round) :=
  lasts_rounds fun _ rounds _ hm hr hrounds => lasts_repeatAtMost h rounds s hm hr hrounds

theorem lasts_levels {f : Nat → Reading α} (h : ∀ depth m, m < depth → Lasts e m (f depth)) :
    Lasts e n (get >>= fun r => f r.rounds) :=
  lasts_rounds fun m rounds r _ hr hrounds => h rounds m hrounds m (Nat.le_refl m) r hr

end Reading

namespace Grammar

open Reading

variable {e : Cursor} {n : Nat}

/-! ## Names and constants -/

theorem turns_dottedRound (name : String) : Turns e n (dottedRound name) := by
  refine (lasts_accept _).bind_turns fun b => ?_
  cases b with
  | true => exact ((strides_expectIdent _).bind fun _ _ _ => lasts_pure _).turns
  | false => exact turns_done _

theorem lasts_dotted (name : String) : Lasts e n (dotted name) :=
  lasts_repeatFrom turns_dottedRound name

theorem strides_fullIdent : Strides e n fullIdent :=
  (strides_expectIdent _).bind fun _ _ first => lasts_position.bind fun _ =>
    (lasts_dotted first).bind fun _ => lasts_pure _

theorem strides_messageType : Strides e n messageType := by
  refine (lasts_accept _).bind_strides fun b => ?_
  cases b with
  | true =>
    exact lasts_position.bind_strides fun _ => strides_fullIdent.bind fun _ _ _ => lasts_pure _
  | false => exact strides_fullIdent

theorem lasts_fieldType : Lasts e n fieldType := by
  refine lasts_next_bind rfl fun kind => fresh_text_bind fun word => ?_
  split
  · exact (lasts_position.bind fun _ => lasts_pure _).fresh
  · split
    · exact fresh_putBack_bind fun _ => strides_messageType.lasts
    · exact (lasts_reject _).fresh

theorem lasts_optionName : Lasts e n optionName := by
  refine lasts_next_bind rfl fun kind => ?_
  split
  · exact (lasts_text.bind fun w => lasts_dotted w).fresh
  · exact (strides_fullIdent.lasts.bind fun name =>
      (strides_expectDelimiter _ _).lasts.bind fun _ => lasts_dotted _).fresh
  · exact (lasts_reject _).fresh

theorem lasts_constant? (curly : Bool) : Lasts e n (constant? curly) := by
  refine lasts_next_bind rfl fun kind => fresh_position_bind fun start => ?_
  split
  · exact (lasts_text.bind fun w => lasts_pure _).fresh
  · split
    case h_1 =>
      exact fresh_putBack_bind fun _ => strides_fullIdent.lasts.bind fun _ => lasts_pure _
    case h_4 =>
      split
      · exact fresh_putBack_bind fun _ => lasts_pure _
      · exact (lasts_reject _).fresh
    case h_5 => exact (lasts_reject _).fresh
    -- behind either sign
    all_goals
      refine (lasts_text.bind fun sign => lasts_next_bind rfl fun kind => ?_).fresh
      split
      · exact (lasts_text.bind fun w => lasts_pure _).fresh
      · exact (lasts_text.bind fun w => lasts_pure _).fresh
      · exact (lasts_reject _).fresh

section
variable {nested : Reading Endpoint}

theorem strides_endpointField (hn : ∀ k < n, Lasts e k nested) :
    Strides e n (endpointField nested) := by
  refine strides_fullIdent.bind fun k hk name => lasts_next_bind rfl fun kind => ?_
  have hend (constant : String) : Lasts e k
      (do return { name := name.1, constant, extent := ⟨name.2, ← position⟩ : EndpointField }) :=
    lasts_position.bind fun _ => lasts_pure _
  split
  · exact fresh_putBack_bind fun _ => (hn k hk).bind fun e => hend _
  · refine ((lasts_constant? true).bind fun a => ?_).fresh
    split
    · exact hend _
    · exact (hn k hk).bind fun e => hend _
  · exact (lasts_reject_bind _).fresh

theorem lasts_binding (hn : Lasts e n nested) : Lasts e n (binding nested) :=
  lasts_position.bind fun _ => (lasts_accept _).bind fun _ => hn.bind fun _ =>
    lasts_position.bind fun _ => lasts_pure _

theorem turns_endpointRound (hn : ∀ k < n, Lasts e k nested) (read : Endpoint) :
    Turns e n (endpointRound nested read) := by
  refine turns_next_bind rfl fun kind => ?_
  split
  · exact .inl (turns_done _).fresh
  · exact .inr ⟨nofun, fun k hk => (lasts_binding (hn k hk)).bind fun _ =>
      (lasts_accept _).bind fun _ => lasts_pure _⟩
  · exact .inl (fresh_putBack_turns fun _ => ((strides_endpointField hn).bind fun _ _ _ =>
      (lasts_accept _).bind fun _ => lasts_pure _).turns)

/-- What is nested in an endpoint stands behind its curly. -/
theorem strides_endpointWith (hn : ∀ k < n, Lasts e k nested) : Strides e n (endpointWith nested) :=
  (strides_expectDelimiter _ _).bind fun _ hk _ =>
    lasts_repeatFrom (turns_endpointRound fun j hj => hn j (Nat.lt_trans hj hk)) _

end

theorem lasts_endpointAtMost (depth : Nat) (h : n < depth) : Lasts e n (endpointAtMost depth) := by
  induction depth generalizing n with
  | zero => omega
  | succ depth ih => exact (strides_endpointWith fun k hk => ih (by omega)).lasts

theorem lasts_endpoint : Lasts e n endpoint :=
  lasts_levels fun depth _ h => lasts_endpointAtMost depth h

theorem turns_stringListRound (items : List String) : Turns e n (stringListRound items) := by
  refine (lasts_peek rfl).bind_turns fun kind => ?_
  split
  · exact (lasts_next rfl).bind_turns fun _ => turns_done _
  · refine ((strides_expect rfl .stringLit nofun _).bind fun _ _ item =>
      (lasts_peek rfl).bind fun kind => ?_).turns
    split
    · exact (lasts_next rfl).bind fun _ => lasts_pure _
    · exact lasts_pure _

theorem lasts_stringList : Lasts e n stringList :=
  (strides_expectDelimiter _ _).lasts.bind fun _ => lasts_repeatFrom turns_stringListRound _

section
variable {nested : Reading Entries}

theorem lasts_literalValue (hn : Lasts e n nested) : Lasts e n (literalValue nested) := by
  refine (lasts_peek rfl).bind fun kind => ?_
  split
  · exact lasts_stringList.bind fun _ => lasts_pure _
  · refine (lasts_constant? true).bind fun a => ?_
    split
    · exact lasts_pure _
    · exact hn.bind fun _ => lasts_pure _

theorem turns_entriesRound (hn : ∀ k < n, Lasts e k nested) (entries : Entries) :
    Turns e n (entriesRound nested entries) := by
  refine ((strides_expectIdent _).bind fun k hk name =>
    (strides_expectDelimiter _ _).lasts.bind fun _ => (lasts_literalValue (hn k hk)).bind
      fun value => lasts_next_bind rfl fun kind => ?_).turns
  split
  · refine ((lasts_peek rfl).bind fun kind => ?_).fresh
    split
    · exact (lasts_next rfl).bind fun _ => lasts_pure _
    · exact lasts_pure _
  · exact (lasts_pure _).fresh
  · exact fresh_putBack_bind fun _ => lasts_pure _

/-- What is nested in a group stands behind its curly. -/
theorem strides_entriesWith (hn : ∀ k < n, Lasts e k nested) : Strides e n (entriesWith nested) :=
  (strides_expectDelimiter _ _).bind fun _ hk _ =>
    lasts_repeatFrom (turns_entriesRound fun j hj => hn j (Nat.lt_trans hj hk)) _

end

theorem lasts_entriesAtMost (depth : Nat) (h : n < depth) : Lasts e n (entriesAtMost depth) := by
  induction depth generalizing n with
  | zero => omega
  | succ depth ih => exact (strides_entriesWith fun k hk => ih (by omega)).lasts

theorem lasts_literal : Lasts e n literal := by
  have h : Lasts e n (get >>= fun r => entriesAtMost r.rounds) :=
    lasts_levels fun depth _ h => lasts_entriesAtMost depth h
  exact h.bind fun entries => lasts_pure (Literal.group entries)

/-! ## Statements -/

theorem lasts_noted {α : Type} (item : α) (start : Position) :
    Lasts e n (do return { item, notes := ← finish start : Noted α }) :=
  ((strides_expectDelimiter _ _).lasts.bind fun _ => lasts_position.bind fun _ =>
    lasts_pure _).bind fun _ => lasts_pure _

theorem strides_version : Strides e n version := by
  refine (strides_expectKeyword _).bind fun _ _ start =>
    (strides_expectDelimiter _ _).lasts.bind fun _ =>
      (strides_expect rfl (.delimiter .quote) nofun _).lasts.bind fun quote =>
        (lasts_next rfl).bind fun _ => lasts_text.bind fun word => ?_
  split
  · exact lasts_reject_bind _
  · refine (lasts_next rfl).bind fun kind => lasts_text.bind fun closing => ?_
    split
    · exact lasts_reject_bind _
    · exact lasts_noted _ start

theorem lasts_importBehind (visibility : Visibility) (start : Position) (kind : Kind) :
    Lasts e n (importBehind visibility start kind) := by
  unfold importBehind
  split
  · exact lasts_reject_bind _
  · exact lasts_text.bind fun location => lasts_noted _ start

theorem strides_importing : Strides e n importing := by
  rw [importing_eq]
  refine (strides_expectKeyword _).bind fun _ _ start => (lasts_next rfl).bind fun kind => ?_
  split
  · exact lasts_importBehind _ start kind
  · exact (lasts_next rfl).bind fun kind => lasts_importBehind _ start kind

theorem strides_package : Strides e n package :=
  (strides_expectKeyword _).bind fun _ _ start => strides_fullIdent.lasts.bind fun _ =>
    lasts_noted _ start

theorem strides_option (opts : Options) : Strides e n (option opts) := by
  refine (strides_expectKeyword _).bind fun _ _ start => lasts_optionName.bind fun name =>
    (strides_expectDelimiter _ _).lasts.bind fun _ => (lasts_constant? _).bind fun a => ?_
  split
  · exact lasts_noted _ start
  · exact lasts_endpoint.bind fun _ => lasts_noted _ start

theorem lasts_setting (opts : Options) : Lasts e n (setting opts) := by
  refine lasts_optionName.bind fun name => (strides_expectDelimiter _ _).lasts.bind fun _ =>
    (lasts_constant? _).bind fun a => ?_
  split
  · exact lasts_pure _
  · exact lasts_literal.bind fun _ => lasts_pure _

theorem turns_settingsRound (opts : Options) (settings : List Setting) :
    Turns e n (settingsRound opts settings) := by
  refine turns_next_bind rfl fun kind => ?_
  split
  · exact .inl (turns_done _).fresh
  · exact .inr ⟨nofun, fun _ _ => (lasts_setting opts).bind fun _ => lasts_pure _⟩
  · exact .inl (turns_reject _).fresh

theorem lasts_settings (opts : Options) : Lasts e n (settings opts) := by
  refine (lasts_accept _).bind fun b => ?_
  cases b with
  | false => exact lasts_pure _
  | true =>
    exact (lasts_setting opts).bind fun first => lasts_repeatFrom (turns_settingsRound opts) _

theorem lasts_fieldNumber : Lasts e n fieldNumber := by
  refine (lasts_next rfl).bind fun kind => lasts_text.bind fun number => ?_
  split
  · exact lasts_pure _
  · exact lasts_reject _

theorem strides_field (opts : Options) : Strides e n (field opts) := by
  rw [field_eq]
  exact strides_optionally _ fun first => lasts_fieldType.bind_strides fun type =>
    (strides_expectIdent _).bind fun _ _ name => (strides_expectDelimiter _ _).lasts.bind fun _ =>
      lasts_fieldNumber.bind fun number => (lasts_settings opts).bind fun _ =>
        ((strides_expectDelimiter _ _).lasts.bind fun _ => lasts_position.bind fun _ =>
          lasts_pure _).bind fun _ => lasts_pure _

theorem lasts_keyType : Lasts e n keyType := by
  refine (lasts_next rfl).bind fun kind => lasts_text.bind fun word => ?_
  split
  · exact lasts_pure _
  · exact lasts_reject _

theorem strides_mapField (opts : Options) : Strides e n (mapField opts) :=
  (strides_expectKeyword _).bind fun _ _ start => (strides_expectDelimiter _ _).lasts.bind fun _ =>
    lasts_keyType.bind fun _ => (strides_expectDelimiter _ _).lasts.bind fun _ =>
      lasts_fieldType.bind fun _ => (strides_expectDelimiter _ _).lasts.bind fun _ =>
        (strides_expectIdent _).lasts.bind fun _ => (strides_expectDelimiter _ _).lasts.bind
          fun _ => lasts_fieldNumber.bind fun _ => (lasts_settings opts).bind fun _ =>
            lasts_noted _ start

theorem strides_enumField (opts : Options) : Strides e n (enumField opts) := by
  refine (strides_expectIdent _).bind fun _ _ name => lasts_position.bind fun start =>
    (strides_expectDelimiter _ _).lasts.bind fun _ => (lasts_next rfl).bind fun kind =>
      lasts_text.bind fun number => ?_
  split
  · exact lasts_reject_bind _
  · exact (lasts_settings opts).bind fun _ => lasts_noted _ start

theorem strides_range : Strides e n range := by
  refine (strides_expect rfl .intLit nofun _).bind fun _ _ first =>
    lasts_next_bind rfl fun kind => ?_
  split
  · refine ((lasts_next rfl).bind fun kind => ?_).fresh
    split
    · exact lasts_text.bind fun _ => lasts_pure _
    · exact lasts_text.bind fun _ => lasts_pure _
    · exact lasts_reject _
  · exact fresh_putBack_bind fun _ => lasts_pure _

theorem turns_rangesRound (ranges : List NumberRange) : Turns e n (rangesRound ranges) := by
  refine (lasts_accept _).bind_turns fun b => ?_
  cases b with
  | true => exact (strides_range.bind fun _ _ _ => lasts_pure _).turns
  | false => exact turns_done _

theorem turns_reservedNamesRound (names : List String) : Turns e n (reservedNamesRound names) := by
  refine ((strides_expect rfl .stringLit nofun _).bind fun _ _ name =>
    (lasts_accept _).bind fun b => ?_).turns
  cases b <;> exact lasts_pure _

theorem strides_reserved : Strides e n reserved := by
  refine (strides_expectKeyword _).bind fun _ _ start => (lasts_peek rfl).bind fun kind => ?_
  split
  · exact (lasts_repeatFrom turns_reservedNamesRound _).bind fun _ => lasts_noted _ start
  · exact (strides_range.lasts.bind fun _ => lasts_repeatFrom turns_rangesRound _).bind fun _ =>
      lasts_noted _ start

/-! ## Bodies -/

theorem lasts_rpcType : Lasts e n rpcType := by
  rw [rpcType_eq]
  exact (strides_expectDelimiter _ _).lasts.bind fun _ => lasts_optionally _ fun first =>
    strides_messageType.lasts.bind fun type => lasts_position.bind fun last =>
      (strides_expectDelimiter _ _).lasts.bind fun _ => lasts_pure _

theorem lasts_commentsAhead : Lasts e n commentsAhead :=
  (lasts_peek rfl).bind fun _ => lasts_pending.bind fun _ => (lasts_setPending _).bind fun _ =>
    lasts_pure _

theorem lasts_commentBehind (place : Position) : Lasts e n (commentBehind place) := by
  refine lasts_pending.bind fun _ => (lasts_setPending _).bind fun _ =>
    (lasts_peek rfl).bind fun _ => lasts_pending.bind fun comments => ?_
  split
  · split
    · exact (lasts_setPending _).bind fun _ => lasts_pure _
    · exact lasts_pure _
  · exact lasts_pure _

theorem lasts_attach (comments : List Comment) (notes : Notes) : Lasts e n (attach comments notes) :=
  (lasts_commentBehind _).bind fun _ => lasts_pure _

section
variable {body : Scope → Reading Body} (hbody : ∀ k < n, ∀ scope, Lasts e k (body scope))
include hbody

theorem strides_rpc : Strides e n (rpc body) := by
  refine (strides_expectKeyword _).bind fun k hk start =>
    (strides_expectIdent _).lasts.bind fun name => lasts_rpcType.bind fun request =>
      (strides_expectKeyword _).lasts.bind fun _ => lasts_rpcType.bind fun response =>
        lasts_next_bind rfl fun kind => ?_
  split
  · exact (lasts_position.bind fun _ => lasts_pure _).fresh
  · exact fresh_putBack_bind fun _ => (hbody k hk _).bind fun _ => lasts_pure _
  · exact (lasts_reject _).fresh

/-- A block that starts with a keyword. -/
theorem strides_keyword_block {α : Type} (k : Keyword) {x : Reading α} (hx : ∀ m, Lasts e m x)
    (scope : Scope) (head : α → Head) :
    Strides e n (do let start ← expectKeyword k; block body scope (head (← x)) start) :=
  (strides_expectKeyword k).bind fun m hm _ => (hx m).bind fun _ =>
    (hbody m hm scope).bind fun _ => lasts_pure _

theorem strides_declaration (opts : Options) (p : Production) :
    Strides e n (declaration opts body p) := by
  have hident (expected : String) : ∀ m, Lasts e m (expectIdent expected) :=
    fun _ => (strides_expectIdent _).lasts
  cases p with
  | version => exact strides_version.bind fun _ _ _ => lasts_pure _
  | importing => exact strides_importing.bind fun _ _ _ => lasts_pure _
  | package => exact strides_package.bind fun _ _ _ => lasts_pure _
  | option => exact (strides_option opts).bind fun _ _ _ => lasts_pure _
  | field => exact (strides_field opts).bind fun _ _ _ => lasts_pure _
  | mapField => exact (strides_mapField opts).bind fun _ _ _ => lasts_pure _
  | enumField => exact (strides_enumField opts).bind fun _ _ _ => lasts_pure _
  | reserved => exact strides_reserved.bind fun _ _ _ => lasts_pure _
  | oneof => exact strides_keyword_block hbody _ (hident _) _ _
  | enum => exact strides_keyword_block hbody _ (hident _) _ _
  | extend =>
    exact strides_keyword_block hbody _ (fun _ => strides_messageType.lasts) _ fun a => .extend a.1
  | message => exact strides_keyword_block hbody _ (hident _) _ _
  | service => exact strides_keyword_block hbody _ (hident _) _ _
  | rpc => exact strides_rpc hbody

theorem strides_element (opts : Options) (keep : Bool) (comments : List Comment) (p : Production) :
    Strides e n (element opts body keep comments p) :=
  (strides_declaration hbody opts p).bind fun _ _ _ => (lasts_attach _ _).bind fun _ =>
    lasts_pure _

theorem turns_bodyRound (opts : Options) (scope : Scope) (curly : Option Comment)
    (elements : List Element) : Turns e n (bodyRound opts body scope curly elements) := by
  refine lasts_commentsAhead.bind_turns fun comments => turns_peek_bind rfl fun kind => ?_
  split
  · exact .inl ((lasts_next rfl).bind_turns fun _ => lasts_position.bind_turns fun _ =>
      turns_done _)
  · exact .inr ⟨nofun, _, rfl⟩
  · refine .inl ?_
    split
    · exact (lasts_next rfl).bind_turns fun _ => turns_reject _
    · exact ((strides_element hbody opts _ _ _).bind fun _ _ _ => lasts_pure _).turns

end

/-- The blocks in a body stand behind its curly. -/
theorem strides_bodyWith {nested : Scope → Reading Body} (opts : Options)
    (hn : ∀ k < n, ∀ scope, Lasts e k (nested scope)) (scope : Scope) :
    Strides e n (bodyWith opts nested scope) :=
  (strides_expectDelimiter _ _).bind fun _ hk _ => lasts_position.bind fun _ =>
    (lasts_commentBehind _).bind fun curly => lasts_repeatFrom
      (turns_bodyRound (fun j hj => hn j (Nat.lt_trans hj hk)) opts scope curly) _

theorem lasts_bodyAtMost (opts : Options) (depth : Nat) (h : n < depth) (scope : Scope) :
    Lasts e n (bodyAtMost opts depth scope) := by
  induction depth generalizing n scope with
  | zero => omega
  | succ depth ih => exact (strides_bodyWith opts (fun k hk => ih (by omega)) scope).lasts

theorem lasts_body (opts : Options) (scope : Scope) : Lasts e n (body opts scope) :=
  lasts_levels fun depth _ h => lasts_bodyAtMost opts depth h scope

/-! ## Files -/

theorem turns_fileRound (opts : Options) (f : File) : Turns e n (fileRound opts f) := by
  refine lasts_commentsAhead.bind_turns fun comments => turns_peek_bind rfl fun kind => ?_
  split
  · exact .inl (turns_done _)
  · exact .inr ⟨nofun, _, rfl⟩
  · refine .inl ?_
    split
    · exact (lasts_next rfl).bind_turns fun _ => turns_reject _
    · exact (strides_version.bind fun _ _ v => (lasts_attach _ _).bind fun _ =>
        lasts_pure _).turns
  · refine .inl ?_
    split
    · exact (lasts_next rfl).bind_turns fun _ => turns_reject _
    · exact ((strides_element (fun _ _ scope => lasts_body opts scope) opts _ _ _).bind
        fun _ _ _ => lasts_pure _).turns

theorem lasts_file (opts : Options) : Lasts e n (file opts) :=
  lasts_repeatFrom (turns_fileRound opts) {}

end Grammar

end ProtoIdl
