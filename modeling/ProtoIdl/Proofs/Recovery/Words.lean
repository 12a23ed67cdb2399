import ProtoIdl.Proofs.Grammar.Optional
import ProtoIdl.Proofs.Grammar.Past
import ProtoIdl.Proofs.Token.Legible
import ProtoIdl.Proofs.Token.Spaced
/-!
# Reading words

`Reader.At ws` says that reading stands in front of the words `ws`, which are written with one blank
between each two. `Reading.Yields x ws Q` says that on these words the step `x` succeeds, and that
`Q` holds of its answer and of the words that are left. A loop that takes words in every round ends,
because there are fewer characters than rounds (`Reading.yields_repeatFrom`).
-/
namespace ProtoIdl

open Scan (isBlank)

variable {mode : Mode} {kind : Kind} {w : String} {ws rest : List String}

/-- Nothing is in front of the token on these words. -/
theorem Cursor.leads_clear {c : Cursor} (he : c.ending = none)
    (hc : c.rest.dropWhile isBlank = front ws) (hb : (front ws).head? ≠ some '/') :
    ∃ d, c.Leads .clear [] d d ∧ d.ending = none ∧ d.rest = front ws := by
  obtain ⟨b, d, hg, hd, hopen⟩ := (Scan.gap_ends c).exists_ok fun _ => not_faulty he
  have hrest : d.rest = front ws := by
    rw [hd, rest_advance, ← hc, Scan.drop_takeWhile]
  cases b with
  | false => exact ⟨d, .clear hg, by rw [hd, ending_advance, he], hrest⟩
  | true =>
    obtain ⟨x, more, hslash, -⟩ := hopen.1 rfl
    rw [← hrest, hslash] at hb
    exact absurd rfl hb

/-- The token that words are read as is found. -/
theorem Cursor.finds_of_lexes {c : Cursor} (he : c.ending = none)
    (hc : c.rest.dropWhile isBlank = front ws) (hl : Lexes mode ws kind w rest) :
    ∃ t d e, c.Finds mode t [] d e ∧ t.kind = kind ∧ t.text = w ∧
      e.rest.dropWhile isBlank = front rest := by
  obtain ⟨d, hlead, hd, hrest⟩ := c.leads_clear he hc hl.bare
  obtain ⟨tail, htakes, htail⟩ := hl.takes
  obtain ⟨e, htoken, -, hrest'⟩ := htakes d hd hrest
  refine ⟨_, d, e, .token hlead htoken, rfl, ?_, by rw [hrest', htail]⟩
  rw [Token.make, String.ofList_toList]

namespace Reader

/-- Reading stands in front of the words, and no comments are queued. -/
structure At (ws : List String) (r : Reader) : Prop where
  whole : r.edge.ending = none
  text : r.edge.rest.dropWhile isBlank = front ws
  rounds : r.edge.rest.length < r.stream.rounds
  queue : r.stream.pending = []

variable {r : Reader}

theorem At.of_front {ws' : List String} (h : r.At ws) (hf : front ws = front ws') : r.At ws' :=
  ⟨h.whole, h.text.trans hf, h.rounds, h.queue⟩

/-- No loop over the words runs out of rounds. -/
theorem At.ink_lt (h : r.At ws) : ink ws < r.stream.rounds := by
  refine Nat.lt_of_le_of_lt ?_ h.rounds
  rw [← countP_front, ← h.text, countP_dropWhile]
  exact List.countP_le_length

theorem At.past (h : r.At ws) : r.Past r.edge :=
  ⟨h.whole, .refl _, h.rounds, by simp [h.queue]⟩

/-- The next word is read, and the others are left. -/
theorem At.next (h : r.At ws) (hm : mode.comments = false) (hl : Lexes mode ws kind w rest) :
    (r.next mode).At rest ∧ (r.next mode).token.kind = kind ∧ (r.next mode).token.text = w := by
  have hp := h.past.next mode hm
  obtain ⟨t, d, e, hf, hkind, htext, hrest⟩ := Cursor.finds_of_lexes h.whole h.text hl
  obtain ⟨ts, hts, hf'⟩ := h.past.finds mode hm
  obtain ⟨rfl, rfl, -, rfl⟩ := hf'.unique hf
  refine ⟨⟨hp.reached.ending_eq.trans h.whole, hrest, hp.rounds, ?_⟩, hkind, htext⟩
  rw [hts, h.queue, List.append_nil]

/-- What was read is put back, whatever it was. -/
theorem At.putBack (h : r.At ws) (hm : mode.comments = false)
    (hb : (front ws).head? ≠ some '/') {E : Failure → Prop} :
    Reading.Sat Reading.putBack (r.next mode) (fun _ r' => r'.At ws) E := by
  have hp := h.past.next mode hm
  obtain ⟨d, hlead, hd, hrest⟩ := Cursor.leads_clear h.whole h.text hb
  obtain ⟨t, e, ht, -⟩ := (Scan.token_found mode d).exists_ok fun _ => Cursor.not_faulty hd
  obtain ⟨ts, hts, hf⟩ := h.past.finds mode hm
  obtain ⟨-, rfl, hmark, -⟩ := hf.unique (.token hlead ht)
  refine (Reading.putBack_sat mode).mono ?_
  rintro _ r' ⟨-, -, hstream⟩
  have hedge : r'.edge = d := by
    rw [edge, hstream, ← hmark]
    rfl
  refine ⟨hedge ▸ hd, ?_, ?_, ?_⟩
  · rw [hedge, hrest, front, List.dropWhile_idempotent]
  · rw [hedge, hstream, ← hmark]
    exact hp.mark_rounds
  · rw [hstream]
    change (r.next mode).stream.pending = []
    rw [hts, h.queue, List.append_nil]

end Reader

namespace Reading

variable {α β σ : Type}

/-- On these words the step succeeds; its answer and the words left satisfy `Q`. -/
def Yields (x : Reading α) (ws : List String) (Q : α → List String → Prop) : Prop :=
  ∀ r : Reader, r.At ws → Sat x r (fun a r' => ∃ ws', r'.At ws' ∧ Q a ws') fun _ => False

section
variable {x : Reading α} {P Q : α → List String → Prop}

theorem Yields.mono (h : Yields x ws P) (hq : ∀ a ws, P a ws → Q a ws) : Yields x ws Q :=
  fun r hr => (h r hr).mono fun a _ ⟨ws', hr', ha⟩ => ⟨ws', hr', hq a ws' ha⟩

theorem Yields.bind {f : α → Reading β} {Q : β → List String → Prop} (h : Yields x ws P)
    (hf : ∀ a ws, P a ws → Yields (f a) ws Q) : Yields (x >>= f) ws Q :=
  fun r hr => (h r hr).bind fun a r' ⟨ws', hr', ha⟩ => hf a ws' ha r' hr'

theorem yields_pure {a : α} (h : Q a ws) : Yields (pure a) ws Q :=
  fun _ hr => sat_pure ⟨ws, hr, h⟩

theorem yields_position_bind {f : Position → Reading α} (h : ∀ p, Yields (f p) ws Q) :
    Yields (position >>= f) ws Q :=
  fun r hr => sat_position_bind (h _ r hr)

end

/-- What a round of a loop ends in. -/
def Round.Meets (again : σ → List String → Prop) (done : α → List String → Prop) :
    Round σ α → List String → Prop
  | .again s, ws => again s ws
  | .done a, ws => done a ws

/-- A loop ends if every round takes characters; the last round gives the answer. -/
theorem yields_repeatFrom {round : σ → Reading (Round σ α)} {I : σ → List String → Prop}
    {Q : α → List String → Prop} {s : σ} (h : I s ws)
    (hround : ∀ s ws, I s ws → Yields (round s) ws
      (Round.Meets (fun s' ws' => I s' ws' ∧ ink ws' < ink ws) Q)) :
    Yields (repeatFrom s round) ws Q := by
  have hloop (n : Nat) (s : σ) (ws : List String) (h : I s ws) (hn : ink ws < n) :
      Yields (repeatAtMost round n s) ws Q := by
    induction n generalizing s ws with
    | zero => omega
    | succ n ih =>
      refine (hround s ws h).bind ?_
      rintro (s' | a) ws' h'
      · have hlt : ink ws' < ink ws := h'.2
        exact ih s' ws' h'.1 (by omega)
      · exact yields_pure h'
  intro r hr
  refine sat_get.bind ?_
  rintro _ _ ⟨rfl, rfl⟩
  exact hloop _ s ws h (Nat.lt_of_lt_of_le hr.ink_lt (Nat.le_add_right _ 4)) _ hr

/-- A loop that reads an item in every round reads the list up to where no item comes. The words
`left items` are those in front of which `items` are still to be read. -/
theorem yields_items {P : α → Prop} (left : List α → List String)
    {round : List α → Reading (Round (List α) (List α))}
    (hagain : ∀ done a items, P a → Yields (round done) (left (a :: items))
      fun x ws' => x = .again (done ++ [a]) ∧ ws' = left items)
    (hdone : ∀ done, Yields (round done) (left []) fun x ws' => x = .done done ∧ ws' = rest)
    (hink : ∀ a items, P a → ink (left items) < ink (left (a :: items)))
    (done items : List α) (h : ∀ a ∈ items, P a) :
    Yields (repeatFrom done round) (left items) fun a ws' => a = done ++ items ∧ ws' = rest := by
  refine yields_repeatFrom (I := fun done' ws' => ∃ items', ws' = left items' ∧
    (∀ a ∈ items', P a) ∧ done' ++ items' = done ++ items) ⟨items, rfl, h, rfl⟩ ?_
  rintro done' _ ⟨items', rfl, hitems, hall⟩
  cases items' with
  | nil =>
    refine (hdone done').mono ?_
    rintro _ _ ⟨rfl, rfl⟩
    exact ⟨by rw [← hall, List.append_nil], rfl⟩
  | cons a items' =>
    have ha := hitems a List.mem_cons_self
    refine (hagain done' a items' ha).mono ?_
    rintro _ _ ⟨rfl, rfl⟩
    refine ⟨⟨items', rfl, fun b hb => hitems b (List.mem_cons_of_mem a hb), ?_⟩, hink a items' ha⟩
    rw [← hall, List.append_assoc, List.singleton_append]

/-! ## Tokens -/

/-- What is read first, and goes on with the token read. -/
theorem yields_next_bind {f : Kind → Reading α} {Q : α → List String → Prop}
    (hm : mode.comments = false) (hl : Lexes mode ws kind w rest)
    (hf : ∀ r : Reader, r.At ws → (r.next mode).At rest → (r.next mode).token.text = w →
      Sat (f kind) (r.next mode) (fun a r' => ∃ ws', r'.At ws' ∧ Q a ws') fun _ => False) :
    Yields (next mode >>= f) ws Q := by
  intro r hr
  obtain ⟨hrest, hkind, htext⟩ := hr.next hm hl
  refine (next_sat mode).bind ?_
  rintro _ _ ⟨rfl, rfl⟩
  rw [hkind]
  exact hf r hr hrest htext

/-- The next token is looked at; the words stay. -/
theorem peek_yields (hm : mode.comments = false) (hl : Lexes mode ws kind w rest) :
    Yields (peek mode) ws fun k ws' => k = kind ∧ ws' = ws :=
  yields_next_bind hm hl fun _ hr _ _ => (hr.putBack hm hl.bare).bind fun _ _ hr' =>
    sat_pure ⟨ws, hr', rfl, rfl⟩

/-- Something is looked at that is not in front of a comment; the words stay. -/
theorem peek_bare (hm : mode.comments = false) (hb : (front ws).head? ≠ some '/') :
    Yields (peek mode) ws fun _ ws' => ws' = ws := by
  intro r hr
  refine (next_sat mode).bind ?_
  rintro k _ ⟨-, rfl⟩
  exact (hr.putBack hm hb).bind fun _ _ hr' => sat_pure ⟨ws, hr', rfl⟩

/-- The next token is no delimiter that the next word does not start with; the words stay. -/
theorem peek_yields_ne {d : Delimiter} (hw : Shows w)
    (hd : ∀ x ∈ w.toList.head?, Delimiter.ofChar? x ≠ some d) (ws : List String) :
    Yields (peek .plain) (w :: ws) fun k ws' => k ≠ .delimiter d ∧ ws' = w :: ws := by
  have hb : (front (w :: ws)).head? ≠ some '/' := hw.bare true [] ws
  intro r hr
  refine (next_sat .plain).bind ?_
  rintro _ _ ⟨rfl, rfl⟩
  refine (hr.putBack rfl hb).bind fun _ r' hr' => sat_pure ⟨w :: ws, hr', fun hk => ?_, rfl⟩
  obtain ⟨c, hlead, hc, hrest⟩ := Cursor.leads_clear hr.whole hr.text hb
  obtain ⟨t, e, ht, -⟩ := (Scan.token_found .plain c).exists_ok fun _ => Cursor.not_faulty hc
  obtain ⟨ts, -, hf⟩ := hr.past.finds .plain rfl
  obtain ⟨rfl, -, -, -⟩ := hf.unique (.token hlead ht)
  obtain ⟨-, ⟨x, more, hx, hchar⟩, -⟩ := Scan.token_delimiter ht hk
  obtain ⟨tail, htail⟩ := hw.front_cons ws
  obtain ⟨y, v, hv, -⟩ := hw
  rw [hrest, htail, hv] at hx
  obtain rfl : y = x := (List.cons.inj hx).1
  exact hd y (by rw [hv]; rfl) hchar

theorem expect_yields (hm : mode.comments = false) (hl : Lexes mode ws kind w rest)
    (expected : String) :
    Yields (expect mode kind expected) ws fun a ws' => a = w ∧ ws' = rest := by
  refine yields_next_bind hm hl fun r _ hrest htext => ?_
  rw [if_pos rfl]
  exact sat_text ⟨rest, hrest, htext, rfl⟩

theorem expectDelimiter_yields {d : Delimiter} (hl : Lexes .plain ws (.delimiter d) w rest)
    (expected : String) : Yields (expectDelimiter d expected) ws fun _ ws' => ws' = rest :=
  (expect_yields rfl hl expected).bind fun _ _ h => yields_pure h.2

theorem expectIdent_yields (hl : Lexes .plain ws .ident w rest) (expected : String) :
    Yields (expectIdent expected) ws fun a ws' => a = w ∧ ws' = rest :=
  expect_yields rfl hl expected

theorem accept_yields {d : Delimiter} (hl : Lexes .plain ws (.delimiter d) w rest) :
    Yields (accept d) ws fun b ws' => b = true ∧ ws' = rest := by
  refine yields_next_bind rfl hl fun r _ hrest _ => ?_
  rw [if_pos rfl]
  exact sat_pure ⟨rest, hrest, rfl, rfl⟩

theorem accept_yields_false {d : Delimiter} (hl : Lexes .plain ws kind w rest)
    (hk : kind ≠ .delimiter d) : Yields (accept d) ws fun b ws' => b = false ∧ ws' = ws := by
  refine yields_next_bind rfl hl fun r hr _ _ => ?_
  rw [if_neg hk]
  exact (hr.putBack rfl hl.bare).bind fun _ _ hr' => sat_pure ⟨ws, hr', rfl, rfl⟩

section
variable {k : Keyword} {f : Option Position → Reading α} {Q : α → List String → Prop}

theorem optionally_yields (hl : Lexes .keyword ws (.keyword k) w rest)
    (hf : ∀ p, Yields (f (some p)) rest Q) : Yields (optionally k f) ws Q := by
  refine yields_next_bind rfl hl fun r _ hrest _ => sat_position_bind ?_
  rw [if_pos rfl]
  exact hf _ _ hrest

theorem optionally_yields_none (hl : Lexes .keyword ws kind w rest) (hk : kind ≠ .keyword k)
    (hf : Yields (f none) ws Q) : Yields (optionally k f) ws Q := by
  refine yields_next_bind rfl hl fun r hr _ _ => sat_position_bind ?_
  rw [if_neg hk]
  exact (hr.putBack rfl hl.bare).bind fun _ r' hr' => hf r' hr'

end

end Reading

end ProtoIdl
