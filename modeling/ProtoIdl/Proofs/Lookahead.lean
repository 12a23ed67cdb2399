import ProtoIdl.Proofs.Grammar.Footing
import ProtoIdl.Proofs.Places
/-!
# Lookahead

Looking at the next token reads it, queues the comments in front of it, moves the mark, and puts the
token back. On a text without ill-formed octets nothing of this shows afterwards: reading goes on as
if nobody had looked, even under another mode (`peek_transparent`), unless the later mode wants
comments as tokens and the earlier one has queued them.

The record of tokens handed out is what lookahead does change; `Reader.erased` is a reader without it,
and `Reading.Mirrors x` says that the step `x` does not depend on it.
-/
namespace ProtoIdl

/-! ## Readers -/

/-- The comments passed over stand one behind the other, from the place on where passing began. -/
theorem Passes.sorted {c d : Cursor} {ts : List Token} (h : Passes c ts d) :
    (∀ t ∈ ts, c.position.offset ≤ t.position.offset) ∧
      ts.Pairwise fun t u => t.position.offset < u.position.offset := by
  induction h with
  | nil h => exact ⟨by simp, .nil⟩
  | @cons b c d e t ts hb ht hts ih =>
    have hlt : t.position.offset < d.position.offset :=
      (Passes.cons hb ht (.nil (.refl d))).offset_lt t (List.mem_singleton.2 rfl)
    have hpos : t.position = c.position := by
      obtain ⟨n, text, -, -, -, rfl⟩ := ht
      rfl
    refine ⟨List.forall_mem_cons.2 ⟨hpos ▸ hb.offset_le, fun u hu => ?_⟩,
      List.pairwise_cons.2 ⟨fun u hu => hlt.trans_le (ih.1 u hu), ih.2⟩⟩
    exact (hb.trans ht.reaches).offset_le.trans (ih.1 u hu)

namespace Reader

/-- A reader without the record of the tokens handed out. -/
def erased (r : Reader) : Reader := { r with stream := { r.stream with handedOut := [] } }

/-- The reader stands, and the comments queued are in order and in front of the token that was scanned
last. -/
structure Whole (r : Reader) : Prop extends Stands r where
  queue : ∀ t ∈ r.stream.pending, t.position.offset < r.mark.position.offset
  sorted : r.stream.pending.Pairwise fun t u => t.position.offset < u.position.offset

variable {m m' : Mode} {r r' : Reader}

theorem whole_ofBytes (chars : List Char) (file : String) :
    (ofBytes (Utf8.encode chars) file).Whole where
  toStands := stands_ofBytes file (by rw [Utf8.decode_encode])
  queue := by simp [pending_ofBytes]
  sorted := by simp [pending_ofBytes]

theorem Whole.of_erased (h : r.Whole) (he : r.erased = r'.erased) : r'.Whole := by
  have hs : r'.stream.source = r.stream.source := congrArg (·.stream.source) he.symm
  have hp : r'.stream.pending = r.stream.pending := congrArg (·.stream.pending) he.symm
  have hn : r'.stream.rounds = r.stream.rounds := congrArg (·.stream.rounds) he.symm
  refine ⟨⟨?_, ?_, ?_⟩, ?_, ?_⟩
  all_goals simp only [mark, edge, hs, hp, hn]
  exacts [h.whole, h.reached, h.rounds, h.queue, h.sorted]

theorem Whole.next (h : r.Whole) (mode : Mode) : (r.next mode).Whole := by
  obtain ⟨t, ts, d, e, hg, hr⟩ := h.next_gets mode
  have hlt := hg.passes.offset_lt
  obtain ⟨hle, hsorted⟩ := hg.passes.sorted
  have hq (t : Token) (ht : t ∈ r.stream.pending) : t.position.offset < r.edge.position.offset :=
    (h.queue t ht).trans_le h.reached.offset_le
  refine ⟨h.toStands.next mode, ?_, ?_⟩
  · rw [hr]
    exact List.forall_mem_append.2
      ⟨fun t ht => (hq t ht).trans_le hg.passes.reaches.offset_le, hlt⟩
  · rw [hr]
    exact List.pairwise_append.2
      ⟨h.sorted, hsorted, fun t ht u hu => (hq t ht).trans_le (hle u hu)⟩

/-- A token that was looked at is read as if nobody had looked. -/
theorem Whole.peek_next (h : r.Whole) (hm : m'.comments = true → m.comments = true) : ∃ q,
    (Reading.peek m >>= fun _ => Reading.next m') r = .ok (r.next m').token.kind q ∧
      q.erased = (r.next m').erased := by
  obtain ⟨t, ts, d, e, hg, hr⟩ := h.next_gets m
  have hback : (r.next m).putBack = .ok (r.looked t ts d) := by rw [hr, putBack_after]
  obtain ⟨t', ts', d', e', hg', hr'⟩ := (h.toStands.looked hg.passes.reaches).next_gets m'
  obtain ⟨u, us, d'', e'', hu, hru⟩ := h.next_gets m'
  obtain ⟨rfl, rfl, rfl, rfl⟩ := hu.unique (hg.again h.edge_whole hm hg')
  have hq : ((r.looked t ts d).next m').erased = (r.next m').erased := by
    rw [hr', hru]
    simp only [erased, after, looked, TokenStream.after, List.append_assoc]
  have hk : (r.next m').token.kind = ((r.looked t ts d).next m').token.kind := by
    rw [hr', hru]
    rfl
  refine ⟨(r.looked t ts d).next m', ?_, hq⟩
  rw [Reading.run_bind (Reading.run_peek hback), hk, Reading.run_next]

/-- Two readers that differ in the record of the tokens handed out only. -/
structure Twin (r r' : Reader) : Prop where
  erased : r.erased = r'.erased
  whole : r.Whole

theorem Whole.twin (h : r.Whole) : r.Twin r := ⟨rfl, h⟩

namespace Twin

theorem token_eq (h : r.Twin r') : r'.token = r.token := congrArg (·.token) h.erased.symm

theorem previous_eq (h : r.Twin r') : r'.previous = r.previous := congrArg (·.previous) h.erased.symm

theorem stream_eq (h : r.Twin r') :
    r'.stream = { r.stream with handedOut := r'.stream.handedOut } := by
  have hs : r.erased.stream = r'.erased.stream := by rw [h.erased]
  calc r'.stream = { r'.erased.stream with handedOut := r'.stream.handedOut } := rfl
    _ = { r.stream with handedOut := r'.stream.handedOut } := by
      rw [← hs]
      rfl

theorem pending_eq (h : r.Twin r') : r'.stream.pending = r.stream.pending := by rw [h.stream_eq]

theorem rounds_eq (h : r.Twin r') : r'.rounds = r.rounds := by rw [rounds, h.stream_eq, rounds]

theorem next (h : r.Twin r') (mode : Mode) : (r.next mode).Twin (r'.next mode) := by
  obtain ⟨t, ts, d, e, hg, hr⟩ := h.whole.next_gets mode
  obtain ⟨t', ts', d', e', hg', hr'⟩ := (h.whole.of_erased h.erased).next_gets mode
  rw [edge, h.stream_eq] at hg'
  obtain ⟨rfl, rfl, rfl, rfl⟩ := hg.unique hg'
  refine ⟨?_, h.whole.next mode⟩
  rw [hr, hr', after, after, h.token_eq, h.stream_eq]
  rfl

theorem putBack (h : r.Twin r') :
    (∃ q q', r.putBack = .ok q ∧ r'.putBack = .ok q' ∧ q.Twin q') ∨
      ∃ m, r.putBack = .error m ∧ r'.putBack = .error m := by
  unfold Reader.putBack
  rw [h.previous_eq]
  cases r.previous with
  | none => exact .inr ⟨.putBack, rfl, rfl⟩
  | some token =>
    dsimp only
    unfold TokenStream.unscan
    rw [h.stream_eq]
    cases r.stream.canUnscan with
    | true => exact .inl ⟨_, _, rfl, rfl, rfl,
        ⟨⟨h.whole.whole, .refl _, h.whole.rounds⟩, h.whole.queue, h.whole.sorted⟩⟩
    | false => exact .inr ⟨.unscan, rfl, rfl⟩

end Twin

end Reader

/-! ## Steps that do not depend on the record -/

/-- The same answer or the same failure, and twin readers. -/
inductive Reading.Agree {α : Type} :
    EStateM.Result Failure Reader α → EStateM.Result Failure Reader α → Prop
  | ok (a : α) {r r' : Reader} (h : r.Twin r') : Agree (.ok a r) (.ok a r')
  | error (e : Failure) {r r' : Reader} (h : r.Twin r') : Agree (.error e r) (.error e r')

namespace Reading

variable {α β σ : Type}

/-- Twin readers do the same in the step, and are twins again behind it. -/
def Mirrors (x : Reading α) : Prop := ∀ r r' : Reader, r.Twin r' → Agree (x r) (x r')

theorem mirrors_pure (a : α) : Mirrors (pure a) := fun _ _ h => .ok a h

theorem Mirrors.bind {x : Reading α} {f : α → Reading β} (hx : Mirrors x)
    (hf : ∀ a, Mirrors (f a)) : Mirrors (x >>= f) := by
  intro r r' h
  have hagree := hx r r' h
  cases hr : x r with
  | ok a q =>
    cases hr' : x r' with
    | ok a' q' =>
      rw [hr, hr'] at hagree
      obtain ⟨_, hq⟩ := hagree
      rw [run_bind hr, run_bind hr']
      exact hf a q q' hq
    | error e q' =>
      rw [hr, hr'] at hagree
      cases hagree
  | error e q =>
    cases hr' : x r' with
    | ok a' q' =>
      rw [hr, hr'] at hagree
      cases hagree
    | error e' q' =>
      rw [hr, hr'] at hagree
      cases hagree with
      | error _ hq =>
        rw [run_bind_error hr, run_bind_error hr']
        exact .error e hq

theorem mirrors_next (mode : Mode) : Mirrors (next mode) := by
  intro r r' h
  have hn := h.next mode
  rw [run_next, run_next, hn.token_eq]
  exact .ok _ hn

theorem mirrors_putBack : Mirrors putBack := by
  intro r r' h
  rcases h.putBack with ⟨q, q', hr, hr', hq⟩ | ⟨m, hr, hr'⟩
  · rw [run_putBack hr, run_putBack hr']
    exact .ok () hq
  · rw [run_putBack_error hr, run_putBack_error hr']
    exact .error _ h

theorem mirrors_throw (e : Failure) : Mirrors (throw e : Reading α) := fun _ _ h => .error e h

/-- What is asked of a reader that the record does not show in. -/
theorem mirrors_get_bind {f : Reader → Reading α}
    (hf : ∀ r r', r.Twin r' → f r' = f r ∧ Mirrors (f r)) : Mirrors (get >>= f) := by
  intro r r' h
  obtain ⟨heq, hm⟩ := hf r r' h
  rw [run_bind (run_get r), run_bind (run_get r'), heq]
  exact hm r r' h

theorem mirrors_text : Mirrors text :=
  mirrors_get_bind fun r r' h => ⟨by rw [h.token_eq], mirrors_pure _⟩

theorem mirrors_position : Mirrors position :=
  mirrors_get_bind fun r r' h => ⟨by rw [h.token_eq], mirrors_pure _⟩

theorem mirrors_reject (expected : String) : Mirrors (reject expected : Reading α) :=
  mirrors_get_bind fun r r' h =>
    ⟨by rw [Reader.unexpected, Reader.unexpected, h.token_eq], mirrors_throw _⟩

theorem mirrors_repeatFrom {s : σ} {round : σ → Reading (Round σ α)}
    (h : ∀ s, Mirrors (round s)) : Mirrors (repeatFrom s round) := by
  have hn (n : Nat) : ∀ s, Mirrors (repeatAtMost round n s) := by
    induction n with
    | zero => exact fun s => mirrors_throw _
    | succ n ih =>
      intro s
      refine (h s).bind fun a => ?_
      cases a with
      | again s => exact ih s
      | done a => exact mirrors_pure a
  exact mirrors_get_bind fun r r' h => ⟨by rw [h.rounds_eq], hn _ s⟩

theorem mirrors_peek (mode : Mode) : Mirrors (peek mode) :=
  (mirrors_next mode).bind fun k => mirrors_putBack.bind fun _ => mirrors_pure k

theorem mirrors_expect (mode : Mode) (kind : Kind) (expected : String) :
    Mirrors (expect mode kind expected) := by
  refine (mirrors_next mode).bind fun k => ?_
  split
  · exact mirrors_text
  · exact mirrors_reject expected

theorem mirrors_accept (d : Delimiter) : Mirrors (accept d) := by
  refine (mirrors_next .plain).bind fun k => ?_
  split
  · exact mirrors_pure true
  · exact mirrors_putBack.bind fun _ => mirrors_pure false

end Reading

namespace Grammar

open Reading

theorem mirrors_expectIdent (expected : String) : Mirrors (expectIdent expected) :=
  mirrors_expect _ _ _

theorem mirrors_fullIdent : Mirrors fullIdent := by
  refine (mirrors_expectIdent _).bind fun first => mirrors_position.bind fun start => ?_
  have hdotted : Mirrors (dotted first) := by
    refine mirrors_repeatFrom fun name => (mirrors_accept _).bind fun b => ?_
    cases b with
    | true => exact (mirrors_expectIdent _).bind fun _ => mirrors_pure _
    | false => exact mirrors_pure _
  exact hdotted.bind fun _ => mirrors_pure _

theorem mirrors_messageType : Mirrors messageType := by
  refine (mirrors_accept _).bind fun b => ?_
  cases b with
  | true => exact mirrors_position.bind fun _ => mirrors_fullIdent.bind fun _ => mirrors_pure _
  | false => exact mirrors_fullIdent

theorem mirrors_constant? (curly : Bool) : Mirrors (constant? curly) := by
  refine (mirrors_next _).bind fun kind => mirrors_position.bind fun start => ?_
  split
  · exact mirrors_text.bind fun _ => mirrors_pure _
  · split
    case h_1 => exact mirrors_putBack.bind fun _ => mirrors_fullIdent.bind fun _ => mirrors_pure _
    case h_4 =>
      split
      · exact mirrors_putBack.bind fun _ => mirrors_pure _
      · exact mirrors_reject _
    case h_5 => exact mirrors_reject _
    -- behind either sign
    all_goals
      refine mirrors_text.bind fun sign => (mirrors_next _).bind fun kind => ?_
      split
      · exact mirrors_text.bind fun _ => mirrors_pure _
      · exact mirrors_text.bind fun _ => mirrors_pure _
      · exact mirrors_reject _

end Grammar

/-! ## Sessions -/

/-- What can be asked of a reader. -/
inductive Operation
  | next (mode : Mode)
  | putBack
  | peek (mode : Mode)
  /-- Claims all comments queued. -/
  | drain
  /-- Claims the oldest comment queued. -/
  | claim
  | fullIdent
  | messageType
  | constant (curly : Bool)

/-- What a reader answers. -/
inductive Answer
  | kind (k : Kind)
  | done
  | comments (ts : List Token)
  | name (text : String) (start : Position)
  | constant (text : Option String) (start : Position)

namespace Operation

open Reading Grammar

/-- The step that an operation is. -/
def step : Operation → Reading Answer
  | .next mode => return .kind (← Reading.next mode)
  | .putBack => do
    Reading.putBack
    return .done
  | .peek mode => return .kind (← Reading.peek mode)
  | .drain => do
    let comments ← pending
    setPending []
    return .comments comments
  | .claim => do
    let comments ← pending
    setPending comments.tail
    return .comments (comments.take 1)
  | .fullIdent => do
    let (text, start) ← Grammar.fullIdent
    return .name text start
  | .messageType => do
    let (text, start) ← Grammar.messageType
    return .name text start
  | .constant curly => do
    let (text, start) ← constant? curly
    return .constant text start

/-- Comments may be claimed from the front of the queue, and from all of it. -/
theorem mirrors_claim {f : List Token → List Token} (hf : ∀ ts, (f ts).Sublist ts)
    (answer : List Token → Answer) :
    Mirrors (do let ts ← pending; setPending (f ts); return answer ts) := by
  intro r r' h
  have hrun (q : Reader) : (do let ts ← pending; setPending (f ts); return answer ts) q =
      .ok (answer q.stream.pending)
        { q with stream := { q.stream with pending := f q.stream.pending } } := rfl
  rw [hrun, hrun, h.pending_eq]
  refine .ok _ ⟨?_, h.whole.toStands.setQueue _, fun t ht => ?_, ?_⟩
  · rw [Reader.erased, Reader.erased, h.stream_eq, h.token_eq, h.previous_eq]
  · exact h.whole.queue t ((hf _).subset ht)
  · exact h.whole.sorted.sublist (hf _)

theorem mirrors_step (op : Operation) : Mirrors op.step := by
  cases op with
  | next mode => exact (mirrors_next mode).bind fun _ => mirrors_pure _
  | putBack => exact mirrors_putBack.bind fun _ => mirrors_pure _
  | peek mode => exact (mirrors_peek mode).bind fun _ => mirrors_pure _
  | drain => exact mirrors_claim (fun ts => List.nil_sublist ts) .comments
  | claim => exact mirrors_claim (fun ts => List.tail_sublist ts) fun ts => .comments (ts.take 1)
  | fullIdent => exact mirrors_fullIdent.bind fun _ => mirrors_pure _
  | messageType => exact mirrors_messageType.bind fun _ => mirrors_pure _
  | constant curly => exact (mirrors_constant? curly).bind fun _ => mirrors_pure _

end Operation

namespace Reader

/-- The answers of a reader to operations in turn, and the reader they leave. A failure ends only the
operation that fails. -/
def session : List Operation → Reader → List (Except Failure Answer) × Reader
  | [], r => ([], r)
  | op :: ops, r =>
    let (answer, r) := op.step.outcome r
    let (answers, r) := session ops r
    (answer :: answers, r)

/-- The record of tokens handed out makes no difference to a session. -/
theorem Twin.session {r r' : Reader} (h : r.Twin r') (ops : List Operation) :
    (r.session ops).1 = (r'.session ops).1 ∧ (r.session ops).2.Twin (r'.session ops).2 := by
  induction ops generalizing r r' with
  | nil => exact ⟨rfl, h⟩
  | cons op ops ih =>
    have hagree := op.mirrors_step r r' h
    rw [Reader.session, Reader.session]
    unfold Reading.outcome
    generalize op.step r = x at hagree ⊢
    generalize op.step r' = y at hagree ⊢
    cases hagree with
    | ok a hq => exact ⟨congrArg (Except.ok a :: ·) (ih hq).1, (ih hq).2⟩
    | error e hq => exact ⟨congrArg (Except.error e :: ·) (ih hq).1, (ih hq).2⟩

theorem Whole.session {r : Reader} (h : r.Whole) (ops : List Operation) : (r.session ops).2.Whole :=
  (h.twin.session ops).2.whole

end Reader

/-- Lookahead is transparent. Wherever a session has led on a text, looking at the next token and then
reading it is the same as reading it: the same token, the same queue and the same place, and the same
answers from there on. Only a mode that wants comments must not follow one that queues them. No
comment is queued twice, and those queued are all that were passed over. -/
theorem peek_transparent (chars : List Char) (file : String) (ops later : List Operation)
    (m m' : Mode) (hm : m'.comments = true → m.comments = true) :
    let r := ((Reader.ofBytes (Utf8.encode chars) file).session ops).2
    ∃ q, (Reading.peek m >>= fun _ => Reading.next m') r = .ok (r.next m').token.kind q ∧
      q.erased = (r.next m').erased ∧
      (q.session later).1 = ((r.next m').session later).1 ∧
      (q.session later).2.erased = ((r.next m').session later).2.erased ∧
      (q.stream.pending.Pairwise fun t u => t.position.offset < u.position.offset) ∧
      ∃ ts, q.stream.pending = r.stream.pending ++ ts ∧ Passes r.edge ts q.mark := by
  intro r
  have hr : r.Whole := (Reader.whole_ofBytes chars file).session ops
  obtain ⟨q, hq, he⟩ := hr.peek_next hm
  have htwin : (r.next m').Twin q := ⟨he.symm, hr.next m'⟩
  obtain ⟨hanswers, hlater⟩ := htwin.session later
  obtain ⟨t, ts, d, e, hg, hnext⟩ := hr.next_gets m'
  refine ⟨q, hq, he, hanswers.symm, hlater.erased.symm, ?_, ts, ?_, ?_⟩
  · exact ((hr.next m').of_erased htwin.erased).sorted
  · rw [htwin.pending_eq, hnext]
    rfl
  · have hmark : q.mark = (r.next m').mark := by rw [Reader.mark, htwin.stream_eq, Reader.mark]
    rw [hmark, hnext]
    exact hg.passes

/-- The reader of a text with a comment in front of a number, behind its first word. -/
def Reader.beforeNumber : Reader :=
  ((ofBytes (Utf8.encode "a /* b */ -1".toList) "m.proto").session [.next .plain]).2

/-- A sign that was looked at as a token of its own is read as a part of its number. -/
theorem peek_transparent_sample : (Mode.number.comments = true → Mode.plain.comments = true) ∧
    ∃ q, (Reading.peek .plain >>= fun _ => Reading.next .number) Reader.beforeNumber =
      .ok .intLit q ∧ q.stream.pending.length = 1 := by
  have hkind : (Reader.beforeNumber.next .number).token.kind = .intLit := by decide +kernel
  have hlen : (Reader.beforeNumber.next .number).stream.pending.length = 1 := by decide +kernel
  obtain ⟨q, hq, he, -⟩ :=
    peek_transparent "a /* b */ -1".toList "m.proto" [.next .plain] [] .plain .number nofun
  have hpending : q.erased.stream.pending = (Reader.beforeNumber.next .number).stream.pending := by
    rw [he]
    rfl
  exact ⟨nofun, q, hkind ▸ hq, by rw [← hlen, ← hpending]; rfl⟩

end ProtoIdl
