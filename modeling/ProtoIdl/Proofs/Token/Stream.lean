import ProtoIdl.Proofs.Token.Lexeme
/-!
# What scanning does to a stream of tokens

Two views of `TokenStream.scan` and `TokenStream.unscan`. `TokenStream.Within c` holds of every text
and under every mode: the stream stands at places reached from `c`, and the tokens handed out name
such places only (`TokenStream.Within.calls`). On a text without ill-formed octets `Cursor.Finds`
says more: which token comes next, where it starts and ends, and which comments are in front of it.
Only the place decides that, and a token put back is found again where it was (`Cursor.Finds.again`).
-/
namespace ProtoIdl

/-- Every place that a token names is the place of a cursor reached from `c`. -/
structure Token.Placed (c : Cursor) (t : Token) : Prop where
  position : c.Sees t.position
  last : ∀ p, t.last = some p → c.Sees p
  error : ∀ e, t.error = some e → c.Sees e.position

theorem Token.Placed.of_reaches {c d : Cursor} {t : Token} (h : c.Reaches d)
    (ht : t.Placed d) : t.Placed c where
  position := ht.position.of_reaches h
  last p hp := (ht.last p hp).of_reaches h
  error e he := (ht.error e he).of_reaches h

theorem Token.Lexed.placed {c : Cursor} {t : Token} (h : t.Lexed c) : t.Placed c where
  position := h.sees
  last p hp := by simp [h.last_eq] at hp
  error e he := by
    rcases h.place with ⟨hn, -⟩ | ⟨-, hs, fault, hf⟩
    · simp [hn] at he
    · rw [hf, Option.some.injEq] at he
      exact he ▸ hs

theorem Token.Comments.placed {c d : Cursor} {t : Token} (h : t.Comments c d) : t.Placed c := by
  obtain ⟨n, text, -, -, -, rfl⟩ := h
  refine ⟨c.sees_self, ?_, nofun⟩
  rintro _ ⟨⟩
  exact ⟨_, c.reaches_advance _, rfl⟩

theorem Token.Comments.reaches {c d : Cursor} {t : Token} (h : t.Comments c d) : c.Reaches d := by
  obtain ⟨n, text, -, -, rfl, -⟩ := h
  exact c.reaches_advance n

theorem Token.Comments.kind_eq {c d : Cursor} {t : Token} (h : t.Comments c d) :
    t.kind = .comment := by
  obtain ⟨n, text, -, -, -, rfl⟩ := h
  rfl

theorem Token.placed_ofError {c : Cursor} {e : LexicalError} (h : c.Faulty e) :
    (Token.ofError e).Placed c := by
  refine ⟨h.reaches, nofun, ?_⟩
  rintro _ ⟨⟩
  exact h.reaches

/-- A comment read is a comment unless it is illegal. -/
theorem Scan.comment_ok {c d : Cursor} {t : Token} (hc : OpensComment c.rest)
    (ht : comment c = .ok (t, d)) : t.kind ≠ .illegal ∧ t.Comments c d ∨
      t = .malformed c.rest .unterminatedComment c.position ∧ d = c.atEnd := by
  rcases (comment_ends hc).ok ht with h | h
  · refine .inl ⟨?_, h⟩
    rw [h.kind_eq]
    nofun
  · exact .inr h

/-! ## Under every mode -/

namespace Source

/-- A step taken moves the source to where the step ends, or to the end of the text. -/
theorem take_cases {α : Type} {x : Scan α} {s : Source} {Q : α → Cursor → Prop}
    {E : LexicalError → Prop} (h : Scan.Ends x s.current Q E) :
    (∃ a d, s.take x = (.ok a, s.moveTo d) ∧ Q a d) ∨
      ∃ e, s.take x = (.error e, s.moveTo s.current.atEnd) ∧ E e := by
  unfold take
  cases hx : x s.current with
  | ok r => exact .inl ⟨r.1, r.2, rfl, h.ok hx⟩
  | error e => exact .inr ⟨e, rfl, h.error hx⟩

/-- An invariant `I` of passing over what stands in front of a token: it is kept by white space and by a
comment. In whatever way that comes to an end, `Q` holds of the outcome if it follows from `I` there. -/
theorem lead_rule {mode : Mode} {I : List Token → Source → Prop}
    {Q : Lead × List Token × Source → Prop}
    (hgap : ∀ passed s, I passed s →
      I passed (s.moveTo (s.current.advance (s.current.rest.takeWhile Scan.isBlank).length)))
    (hround : ∀ passed s t d, I passed s → Scan.OpensComment s.current.rest →
      Scan.comment s.current = .ok (t, d) → t.Comments s.current d →
      I (passed ++ [t]) (s.mark.moveTo d))
    (hclear : ∀ passed s, I passed s → Q (.clear, passed, s))
    (hcomment : ∀ passed s t d, I passed s → Scan.OpensComment s.current.rest →
      Scan.comment s.current = .ok (t, d) → Q (.token t, passed, s.mark.moveTo d))
    (herror : ∀ passed s s' e, I passed s → s' = s ∨ s' = s.mark → s.current.Faulty e →
      Q (.token (.ofError e), passed, s'.moveTo s.current.atEnd))
    (rounds : Nat) {passed : List Token} {s : Source} (h : I passed s) :
    Q (s.lead mode rounds passed) := by
  induction rounds generalizing s passed with
  | zero =>
    rw [lead]
    exact hclear _ _ h
  | succ rounds ih =>
    rw [lead]
    rcases take_cases (Scan.gap_ends s.current) with ⟨b, d, hg, hd, hb⟩ | ⟨e, hg, he⟩
    · have hs : I passed (s.moveTo d) := hd ▸ hgap _ _ h
      rw [hg]
      cases b with
      | false => exact hclear _ _ hs
      | true =>
        have hopen : Scan.OpensComment (s.moveTo d).current.rest := hb.1 rfl
        generalize s.moveTo d = s at hs hopen
        dsimp only
        rw [take, current_mark]
        rcases ht : Scan.comment s.current with e | ⟨t, e⟩
        · exact herror _ _ _ e hs (.inr rfl) ((Scan.comment_ends hopen).error ht)
        dsimp only
        split
        · exact hcomment _ _ _ _ hs hopen ht
        · next hk =>
          have hk : t.kind ≠ .illegal := fun h => hk (by simp [h])
          obtain ⟨-, hread⟩ :=
            (Scan.comment_ok hopen ht).resolve_right fun h => hk (by rw [h.1]; rfl)
          exact ih (hround _ _ _ _ hs hopen ht hread)
    · rw [hg]
      exact herror _ _ _ e h (.inl rfl) he

/-- The three cursors of a source are reached from `c`. -/
structure Within (c : Cursor) (s : Source) : Prop where
  current : c.Reaches s.current
  previous : c.Reaches s.previous
  marked : c.Reaches s.marked

variable {c : Cursor} {s : Source}

theorem within_ofBytes (bytes : List UInt8) (file : String) :
    (ofBytes bytes file).Within (Cursor.ofBytes bytes file) :=
  ⟨.refl _, .refl _, .refl _⟩

theorem Within.mark (h : s.Within c) : s.mark.Within c := ⟨h.current, h.current, h.current⟩

theorem Within.reset (h : s.Within c) : s.reset.Within c := ⟨h.marked, h.marked, h.marked⟩

theorem Within.moveTo {d : Cursor} (h : s.Within c) (hd : s.current.Reaches d) :
    (s.moveTo d).Within c :=
  ⟨h.current.trans hd, h.current.trans hd, h.marked⟩

/-- Passing over what stands in front of a token stays within the text. -/
theorem Within.lead (mode : Mode) (rounds : Nat) (passed : List Token) (h : s.Within c) :
    (s.lead mode rounds passed).2.2.Within c ∧
      ∀ t, (s.lead mode rounds passed).1 = .token t → t.Placed c ∧ t.kind ≠ .eof := by
  refine lead_rule (I := fun _ s => s.Within c)
    (Q := fun r => r.2.2.Within c ∧ ∀ t, r.1 = .token t → t.Placed c ∧ t.kind ≠ .eof)
    ?gap ?round ?clear ?comment ?error rounds h
  case gap =>
    intro _ s hs
    exact hs.moveTo (s.current.reaches_advance _)
  case round =>
    intro _ s t d hs _ _ hread
    exact hs.mark.moveTo hread.reaches
  case clear =>
    intro _ s hs
    exact ⟨hs, by simp⟩
  case comment =>
    intro _ s t d hs hopen ht
    have hplaced : (t.Placed c ∧ t.kind ≠ .eof) ∧ s.current.Reaches d := by
      rcases (Scan.comment_ends hopen).ok ht with hread | ⟨rfl, rfl⟩
      · refine ⟨⟨hread.placed.of_reaches hs.current, ?_⟩, hread.reaches⟩
        rw [hread.kind_eq]
        nofun
      · have hlexed : (Token.malformed s.current.rest .unterminatedComment
            s.current.position).Lexed s.current := Token.lexed_malformed s.current.sees_self
        exact ⟨⟨hlexed.placed.of_reaches hs.current, hlexed.ne_eof⟩, s.current.reaches_atEnd⟩
    refine ⟨hs.mark.moveTo hplaced.2, ?_⟩
    rintro _ ⟨⟩
    exact hplaced.1
  case error =>
    intro _ s s' e hs hs' he
    obtain ⟨hwithin, hcurrent⟩ : s'.Within c ∧ s'.current = s.current := by
      rcases hs' with rfl | rfl
      · exact ⟨hs, rfl⟩
      · exact ⟨hs.mark, rfl⟩
    refine ⟨hwithin.moveTo (hcurrent ▸ s.current.reaches_atEnd), ?_⟩
    rintro _ ⟨⟩
    exact ⟨(Token.placed_ofError he).of_reaches hs.current, nofun⟩

end Source

/-- The step that reads the token at a cursor moves forward, whatever is there. Only the end of a
text without a fault is the end of the tokens. -/
theorem Scan.token_ends (mode : Mode) (c : Cursor) :
    Ends (token mode) c
      (fun t d => t.Placed c ∧ c.Reaches d ∧ (t.kind = .eof → c.ending = none)) c.Faulty := by
  rcases hc : c.rest with _ | ⟨x, rest⟩
  · cases he : c.ending with
    | none =>
      refine (token_ends_of_nil mode hc).mono ?_
      rintro _ _ ⟨rfl, rfl⟩
      exact ⟨⟨Cursor.sees_self _, nofun, nofun⟩, .refl _, fun _ => rfl⟩
    | some fault =>
      have hp : c.peek = .error ⟨.illFormed fault, c.position⟩ := by simp [Cursor.peek, hc, he]
      have ht : token mode c = .error ⟨.illFormed fault, c.position⟩ := token_of_error mode hp
      simp only [Ends, ht]
      exact ⟨fault, he, by simp [Cursor.atEnd, hc]⟩
  · refine (token_ends_of_cons mode hc).mono ?_
    rintro t d ⟨hd, ht⟩
    exact ⟨ht.placed, (c.reaches_advance 1).trans hd, fun hk => absurd hk ht.ne_eof⟩

/-- A call on a stream of tokens. -/
inductive TokenStream.Call
  | scan (mode : Mode)
  | unscan

namespace TokenStream

/-- The stream stands at places reached from `c`. -/
def Within (c : Cursor) (s : TokenStream) : Prop := s.source.Within c

variable {c : Cursor} {s : TokenStream}

theorem Within.scan (mode : Mode) (h : s.Within c) :
    (s.scan mode).1.Placed c ∧ (s.scan mode).2.Within c ∧
      ((s.scan mode).1.kind = .eof → c.ending = none) := by
  obtain ⟨hs, ht⟩ := Source.Within.lead mode s.rounds [] h
  unfold TokenStream.scan
  generalize s.source.lead mode s.rounds [] = r at hs ht ⊢
  obtain ⟨lead, passed, source⟩ := r
  cases lead with
  | token t => exact ⟨(ht t rfl).1, hs, fun hk => absurd hk (ht t rfl).2⟩
  | clear =>
    dsimp only
    rcases Source.take_cases (Scan.token_ends mode source.mark.current)
      with ⟨t, d, hk, hp, hd, he⟩ | ⟨e, hk, he⟩
    · rw [hk]
      exact ⟨hp.of_reaches hs.current, hs.mark.moveTo hd,
        fun ht => hs.current.ending_eq ▸ he ht⟩
    · rw [hk]
      exact ⟨(Token.placed_ofError he).of_reaches hs.current,
        hs.mark.moveTo (Cursor.reaches_atEnd _), nofun⟩

theorem Within.unscan {s' : TokenStream} (h : s.Within c) (hu : s.unscan = .ok s') :
    s'.Within c := by
  unfold TokenStream.unscan at hu
  split at hu
  · obtain rfl := Except.ok.inj hu
    exact h.reset
  · cases hu

/-- The tokens that a run of calls hands out, and the stream it leaves. A step back that nothing
preceded changes nothing. -/
def calls : List Call → TokenStream → List Token × TokenStream
  | [], s => ([], s)
  | .scan mode :: rest, s =>
    let (t, s) := s.scan mode
    let (ts, s) := calls rest s
    (t :: ts, s)
  | .unscan :: rest, s =>
    match s.unscan with
    | .ok s => calls rest s
    | .error _ => calls rest s

/-- Whatever is called, only places of the text are named. -/
theorem Within.calls (cs : List Call) (h : s.Within c) :
    (∀ t ∈ (s.calls cs).1, t.Placed c) ∧ (s.calls cs).2.Within c := by
  induction cs generalizing s with
  | nil => exact ⟨by simp [TokenStream.calls], h⟩
  | cons call cs ih =>
    cases call with
    | scan mode =>
      obtain ⟨ht, hs, -⟩ := h.scan mode
      obtain ⟨hts, hs'⟩ := ih hs
      rw [TokenStream.calls]
      exact ⟨List.forall_mem_cons.2 ⟨ht, hts⟩, hs'⟩
    | unscan =>
      unfold TokenStream.calls
      split
      · next s' hu => exact ih (h.unscan hu)
      · exact ih h

end TokenStream

/-! ## On a text without ill-formed octets -/

/-- From `c` to `d` exactly the comments `ts` were passed over. -/
inductive Passes : Cursor → List Token → Cursor → Prop
  | nil {c d : Cursor} (h : c.Reaches d) : Passes c [] d
  | cons {b c d e : Cursor} {t : Token} {ts : List Token} (hb : b.Reaches c) (ht : t.Comments c d)
      (hts : Passes d ts e) : Passes b (t :: ts) e

namespace Passes

variable {c d e : Cursor} {ts us : List Token}

theorem reaches (h : Passes c ts d) : c.Reaches d := by
  induction h with
  | nil h => exact h
  | cons hb ht _ ih => exact (hb.trans ht.reaches).trans ih

theorem of_reaches (h : c.Reaches d) (hd : Passes d ts e) : Passes c ts e := by
  cases hd with
  | nil hd => exact .nil (h.trans hd)
  | cons hb ht hts => exact .cons (h.trans hb) ht hts

theorem append (h : Passes c ts d) (hd : Passes d us e) : Passes c (ts ++ us) e := by
  induction h with
  | nil h => exact hd.of_reaches h
  | cons hb ht _ ih => exact .cons hb ht (ih hd)

end Passes

/-- The token `t` was read from `c` to `d`: it is made of characters, or it is the end. -/
inductive Token.Found (t : Token) (c d : Cursor) : Prop
  | lexed (hc : c.rest ≠ []) (hd : (c.advance 1).Reaches d) (ht : t.Lexed c)
  | eof (hc : c.rest = []) (hd : d = c) (ht : t = .make .eof [] c.position)

namespace Token.Found

variable {t : Token} {c d : Cursor}

theorem reaches (h : t.Found c d) : c.Reaches d := by
  cases h with
  | lexed hc hd ht => exact (c.reaches_advance 1).trans hd
  | eof hc hd ht => exact hd ▸ .refl c

/-- A token of the grammar stands where it was read. -/
theorem position_eq (h : t.Found c d) (hk : t.kind ≠ .illegal) : t.position = c.position := by
  cases h with
  | lexed hc hd ht =>
    rcases ht.place with ⟨-, hp⟩ | ⟨hi, -⟩
    · exact hp
    · exact absurd hi hk
  | eof hc hd ht => rw [ht, Token.make]

/-- Only an illegal token carries an error. -/
theorem error_eq (h : t.Found c d) (hk : t.kind ≠ .illegal) : t.error = none := by
  cases h with
  | lexed hc hd ht =>
    rcases ht.place with ⟨he, -⟩ | ⟨hi, -⟩
    · exact he
    · exact absurd hi hk
  | eof hc hd ht => rw [ht, Token.make]

end Token.Found

theorem Scan.token_found (mode : Mode) (c : Cursor) :
    Ends (token mode) c (fun t d => t.Found c d) c.Faulty := by
  rcases hc : c.rest with _ | ⟨x, rest⟩
  · exact (token_ends_of_nil mode hc).mono fun t d ⟨ht, hd⟩ => .eof hc hd ht
  · exact (token_ends_of_cons mode hc).mono fun t d ⟨hd, ht⟩ => .lexed (by simp [hc]) hd ht

/-- From `c` on the comments `ts` are passed over up to `d`, where `l` comes next; `e` is behind it
if it is a token. -/
inductive Cursor.Leads : Cursor → Source.Lead → List Token → Cursor → Cursor → Prop
  | clear {c d : Cursor} (hg : Scan.gap c = .ok (false, d)) : Leads c .clear [] d d
  | unclosed {c d e : Cursor} {t : Token} (hg : Scan.gap c = .ok (true, d))
      (ht : Scan.comment d = .ok (t, e)) (hk : t.kind = .illegal) : Leads c (.token t) [] d e
  | comment {a b c d e : Cursor} {t : Token} {l : Source.Lead} {ts : List Token}
      (hg : Scan.gap a = .ok (true, b)) (ht : Scan.comment b = .ok (t, c)) (hk : t.kind ≠ .illegal)
      (hl : Leads c l ts d e) : Leads a l (t :: ts) d e

theorem Scan.takeWhile_drop_takeWhile (p : Char → Bool) : (chars : List Char) →
    (chars.drop (chars.takeWhile p).length).takeWhile p = []
  | [] => rfl
  | x :: chars => by
    by_cases hx : p x = true
    · rw [List.takeWhile_cons_of_pos hx, List.length_cons, List.drop_succ_cons]
      exact takeWhile_drop_takeWhile p chars
    · rw [List.takeWhile_cons_of_neg hx, List.length_nil, List.drop_zero,
        List.takeWhile_cons_of_neg hx]

/-- White space is passed over only once. -/
theorem Scan.gap_again {c d : Cursor} {b : Bool} (h : gap c = .ok (b, d))
    (he : c.ending = none) : gap d = .ok (b, d) := by
  obtain ⟨rfl, hb⟩ := (gap_ends c).ok h
  have hd := (c.reaches_advance (c.rest.takeWhile isBlank).length).ending_eq.trans he
  obtain ⟨b', d', h', hd', hb'⟩ := (gap_ends _).exists_ok fun _ => Cursor.not_faulty hd
  rw [Cursor.rest_advance, takeWhile_drop_takeWhile, List.length_nil, Cursor.advance_zero] at hd'
  subst hd'
  rw [h', (Bool.eq_iff_iff.2 (hb'.trans hb.symm) : b' = b)]

namespace Cursor.Leads

variable {c d e : Cursor} {l : Source.Lead} {ts : List Token}

theorem passes (h : Leads c l ts d e) : Passes c ts d := by
  induction h with
  | clear hg =>
    obtain ⟨rfl, -⟩ := (Scan.gap_ends _).ok hg
    exact .nil (reaches_advance _ _)
  | unclosed hg ht hk =>
    obtain ⟨rfl, -⟩ := (Scan.gap_ends _).ok hg
    exact .nil (reaches_advance _ _)
  | comment hg ht hk _ ih =>
    obtain ⟨rfl, hb⟩ := (Scan.gap_ends _).ok hg
    rcases Scan.comment_ok (hb.1 rfl) ht with ⟨-, ht⟩ | ⟨rfl, -⟩
    · exact .cons (reaches_advance _ _) ht ih
    · exact absurd rfl hk

/-- What comes next is found again from where it is. -/
theorem again (h : Leads c l ts d e) (he : c.ending = none) : Leads d l [] d e := by
  induction h with
  | clear hg => exact .clear (Scan.gap_again hg he)
  | unclosed hg ht hk => exact .unclosed (Scan.gap_again hg he) ht hk
  | comment hg ht hk _ ih =>
    refine ih ?_
    obtain ⟨rfl, hb⟩ := (Scan.gap_ends _).ok hg
    rcases Scan.comment_ok (hb.1 rfl) ht with ⟨-, ht⟩ | ⟨rfl, -⟩
    · exact ((reaches_advance _ _).trans ht.reaches).ending_eq.trans he
    · exact absurd rfl hk

theorem clear_eq (h : Leads c .clear ts d e) : e = d := by
  generalize hl : Source.Lead.clear = l at h
  induction h with
  | clear hg => rfl
  | unclosed hg ht hk => cases hl
  | comment hg ht hk _ ih => exact ih hl

/-- Only a comment that is not closed comes before a token. -/
theorem unclosed_eq {t : Token} (h : Leads c (.token t) ts d e) : Scan.OpensComment d.rest ∧
    t = .malformed d.rest .unterminatedComment d.position ∧ e = d.atEnd := by
  generalize hl : Source.Lead.token t = l at h
  induction h with
  | clear hg => cases hl
  | unclosed hg ht hk =>
    cases hl
    obtain ⟨-, hb⟩ := (Scan.gap_ends _).ok hg
    rcases Scan.comment_ok (hb.1 rfl) ht with ⟨hn, -⟩ | h
    · exact absurd hk hn
    · exact ⟨hb.1 rfl, h⟩
  | comment hg ht hk _ ih => exact ih hl

/-- Only the place decides what comes next. -/
theorem unique {l' : Source.Lead} {ts' : List Token} {d' e' : Cursor} (h : Leads c l ts d e)
    (h' : Leads c l' ts' d' e') : l = l' ∧ ts = ts' ∧ d = d' ∧ e = e' := by
  induction h generalizing ts' with
  | clear hg =>
    cases h' with
    | clear hg' => simp_all
    | unclosed hg' => simp_all
    | comment hg' => simp_all
  | unclosed hg ht hk =>
    cases h' with
    | clear hg' => simp_all
    | unclosed hg' ht' => simp_all
    | comment hg' ht' hk' => simp_all
  | comment hg ht hk _ ih =>
    cases h' with
    | clear hg' => simp_all
    | unclosed hg' ht' hk' => simp_all
    | comment hg' ht' hk' hl' =>
      rw [hg] at hg'
      obtain ⟨-, rfl⟩ := Prod.mk.inj (Except.ok.inj hg')
      rw [ht] at ht'
      obtain ⟨rfl, rfl⟩ := Prod.mk.inj (Except.ok.inj ht')
      obtain ⟨rfl, rfl, rfl, rfl⟩ := ih hl'
      exact ⟨rfl, rfl, rfl, rfl⟩

end Cursor.Leads

/-- Where comments are not wanted, all of them are passed over up to what comes next. -/
theorem Source.lead_leads {mode : Mode} (hm : mode.comments = false) (rounds : Nat)
    (passed : List Token) (s : Source) (he : s.current.ending = none)
    (hr : s.current.rest.length < rounds) :
    ∃ ts d, (s.lead mode rounds passed).2.1 = passed ++ ts ∧
      s.current.Leads (s.lead mode rounds passed).1 ts d (s.lead mode rounds passed).2.2.current ∧
      ((s.lead mode rounds passed).1 ≠ .clear → (s.lead mode rounds passed).2.2.marked = d) := by
  induction rounds generalizing s passed with
  | zero => omega
  | succ rounds ih =>
    rw [Source.lead, take]
    obtain ⟨b, d, hg, hd, hb⟩ := (Scan.gap_ends s.current).exists_ok fun _ => Cursor.not_faulty he
    have hsd : s.current.Reaches d := hd ▸ s.current.reaches_advance _
    rw [hg]
    cases b with
    | false => exact ⟨[], d, by simp, .clear hg, fun h => absurd rfl h⟩
    | true =>
      have hopen : Scan.OpensComment d.rest := hb.1 rfl
      obtain ⟨t, e, ht, hte⟩ := (Scan.comment_ends hopen).exists_ok
        fun _ => Cursor.not_faulty (hsd.ending_eq.trans he)
      dsimp only
      rw [take, current_mark, current_moveTo, ht]
      dsimp only
      rw [hm, Bool.false_or]
      split
      · next hk => exact ⟨[], d, by simp, .unclosed hg ht (beq_iff_eq.1 hk), fun _ => rfl⟩
      · next hk =>
        have hk : t.kind ≠ .illegal := fun h => hk (beq_iff_eq.2 h)
        obtain ⟨-, hte⟩ := (Scan.comment_ok hopen ht).resolve_right fun h => hk (by rw [h.1]; rfl)
        have hlt : e.rest.length < rounds := by
          have hle := hsd.length_le
          obtain ⟨n, text, h2, hn, rfl, -⟩ := hte
          rw [Cursor.rest_advance, List.length_drop]
          omega
        have hee : e.ending = none := (hsd.trans hte.reaches).ending_eq.trans he
        obtain ⟨ts, m, hts, hl, hmark⟩ :=
          ih (passed ++ [t]) ((s.moveTo d).mark.moveTo e) hee hlt
        exact ⟨t :: ts, m, by rw [hts, List.append_assoc, List.singleton_append],
          .comment hg ht hk hl, hmark⟩

/-- From `c` on the next token under a mode is `t`: it was read from `d` to `e`, and the comments
`ts` are in front of it. -/
inductive Cursor.Finds (mode : Mode) (c : Cursor) (t : Token) (ts : List Token) (d e : Cursor) :
    Prop
  | token (hl : c.Leads .clear ts d d) (ht : Scan.token mode d = .ok (t, e))
  | unclosed (hl : c.Leads (.token t) ts d e)

namespace Cursor.Finds

variable {m m' : Mode} {c d e : Cursor} {t : Token} {ts : List Token}

theorem passes (h : c.Finds m t ts d e) : Passes c ts d := by
  cases h with
  | token hl ht => exact hl.passes
  | unclosed hl => exact hl.passes

theorem unique {t' : Token} {ts' : List Token} {d' e' : Cursor} (h : c.Finds m t ts d e)
    (h' : c.Finds m t' ts' d' e') : t = t' ∧ ts = ts' ∧ d = d' ∧ e = e' := by
  cases h with
  | token hl ht =>
    cases h' with
    | token hl' ht' =>
      obtain ⟨-, rfl, rfl, -⟩ := hl.unique hl'
      rw [ht] at ht'
      obtain ⟨rfl, rfl⟩ := Prod.mk.inj (Except.ok.inj ht')
      exact ⟨rfl, rfl, rfl, rfl⟩
    | unclosed hl' => cases (hl.unique hl').1
  | unclosed hl =>
    cases h' with
    | token hl' ht' => cases (hl.unique hl').1
    | unclosed hl' =>
      obtain ⟨ht, rfl, rfl, rfl⟩ := hl.unique hl'
      exact ⟨Source.Lead.token.inj ht, rfl, rfl, rfl⟩

/-- A token put back is found again where it was, under any mode. -/
theorem again {t' : Token} {ts' : List Token} {d' e' : Cursor} (he : c.ending = none)
    (h : c.Finds m t ts d e) (h' : d.Finds m' t' ts' d' e') :
    ts' = [] ∧ d' = d ∧ c.Finds m' t' ts d e' := by
  cases h with
  | token hl ht =>
    cases h' with
    | token hl' ht' =>
      obtain ⟨-, rfl, rfl, -⟩ := (hl.again he).unique hl'
      exact ⟨rfl, rfl, .token hl ht'⟩
    | unclosed hl' => cases ((hl.again he).unique hl').1
  | unclosed hl =>
    cases h' with
    | token hl' ht' => cases ((hl.again he).unique hl').1
    | unclosed hl' =>
      obtain ⟨ht, rfl, rfl, rfl⟩ := (hl.again he).unique hl'
      exact ⟨rfl, rfl, .unclosed (Source.Lead.token.inj ht ▸ hl)⟩

/-- From its own place on, the token has nothing in front of it. -/
theorem at_mark (he : c.ending = none) (h : c.Finds m t ts d e) : d.Finds m t [] d e := by
  cases h with
  | token hl ht => exact .token (hl.again he) ht
  | unclosed hl => exact .unclosed (hl.again he)

theorem found (h : c.Finds m t ts d e) : t.Found d e := by
  cases h with
  | token hl ht => exact (Scan.token_found m d).ok ht
  | unclosed hl =>
    obtain ⟨⟨x, more, hr, -⟩, rfl, rfl⟩ := hl.unclosed_eq
    refine .lexed (by simp [hr]) ⟨more.length + 1, ?_⟩ (Token.lexed_malformed (sees_self _))
    rw [atEnd, hr, ← advance_add, List.length_cons, List.length_cons]
    congr 1
    omega

end Cursor.Finds

/-- A scan that passes over comments finds the next token and marks its place. -/
theorem TokenStream.scan_finds {mode : Mode} (hm : mode.comments = false) (s : TokenStream)
    (he : s.source.current.ending = none) (hr : s.source.current.rest.length < s.rounds) :
    ∃ ts, (s.scan mode).2.pending = s.pending ++ ts ∧
      s.source.current.Finds mode (s.scan mode).1 ts (s.scan mode).2.source.marked
        (s.scan mode).2.source.current := by
  obtain ⟨ts, d, hts, hl, hmark⟩ := Source.lead_leads hm s.rounds [] s.source he hr
  unfold TokenStream.scan
  generalize s.source.lead mode s.rounds [] = r at hts hl hmark ⊢
  obtain ⟨lead, passed, source⟩ := r
  dsimp only at hts hl hmark ⊢
  rw [List.nil_append] at hts
  refine ⟨ts, congrArg _ hts, ?_⟩
  cases lead with
  | token t => exact .unclosed ((hmark nofun).symm ▸ hl)
  | clear =>
    obtain rfl := hl.clear_eq
    have hes : source.current.ending = none := hl.passes.reaches.ending_eq.trans he
    obtain ⟨t, e, ht, -⟩ := (Scan.token_found mode source.current).exists_ok
      fun _ => Cursor.not_faulty hes
    dsimp only
    rw [Source.take, Source.current_mark, ht]
    exact .token hl ht

end ProtoIdl
