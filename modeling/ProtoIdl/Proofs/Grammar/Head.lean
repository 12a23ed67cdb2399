import ProtoIdl.Proofs.Grammar.Spans
/-!
# Heads of blocks

The tokens of a head are words, dots and brackets, and words may be read as keywords. So the first
semicolon or curly from a keyword on, in the mode that knows no keywords, is the one that ends the
head (`Reader.HeadFrom`). Main statements: `Grammar.expectKeyword_head` and the readers of heads
behind it.
-/
namespace ProtoIdl

/-! ## Words as keywords -/

theorem Scan.word_plain {c d : Cursor} {t : Token} {mode : Mode} {start : Position}
    (h : word mode start c = .ok (t, d)) :
    (∀ k, t.kind ≠ .delimiter k) ∧
      ∃ t', word .plain start c = .ok (t', d) ∧ ∀ k, t'.kind ≠ .delimiter k := by
  have hk (m : Mode) (chars : List Char) (k : Delimiter) :
      (Token.make (wordKind m (String.ofList chars)) chars start).kind ≠ .delimiter k :=
    wordKind_ne_delimiter m _ k
  cases hr : run Text.isIdentChar c with
  | error e =>
    rw [word, run_bind_error hr] at h
    cases h
  | ok a =>
    obtain ⟨chars, d'⟩ := a
    rw [word, run_bind hr, run_pure] at h
    obtain ⟨rfl, rfl⟩ := Prod.mk.inj (Except.ok.inj h)
    refine ⟨hk mode chars, _, ?_, hk .plain chars⟩
    rw [word, run_bind hr, run_pure]

/-- Whether words may be keywords makes a difference to words only. -/
theorem Scan.token_plain {c d : Cursor} {t : Token} (h : token .keyword c = .ok (t, d)) :
    ∃ t', token .plain c = .ok (t', d) ∧ ∀ k, t.kind = .delimiter k ↔ t'.kind = .delimiter k := by
  rcases hc : c.rest with _ | ⟨x, rest⟩
  · rcases c.peek_cases with hp | ⟨e, hp, -⟩
    · rw [hc] at hp
      refine ⟨t, ?_, fun _ => .rfl⟩
      rw [← h, token_of_nil _ hp, token_of_nil _ hp]
    · rw [token_of_error _ hp] at h
      cases h
  · by_cases hx : Text.isIdentStart x = true
    · rw [token_of_identStart _ hc hx] at h ⊢
      obtain ⟨hk, t', ht', hk'⟩ := word_plain h
      exact ⟨t', ht', fun k => ⟨fun h => absurd h (hk k), fun h => absurd h (hk' k)⟩⟩
    · rw [Bool.not_eq_true] at hx
      refine ⟨t, ?_, fun _ => .rfl⟩
      rw [← h]
      by_cases hd : Text.isDigit x = true
      · rw [token_of_digit _ hc hx hd, token_of_digit _ hc hx hd]
      · rw [Bool.not_eq_true] at hd
        rw [token_of_single _ hc hx hd (Bool.and_false _) rfl,
          token_of_single _ hc hx hd (Bool.and_false _) rfl]

namespace Cursor

variable {c d e : Cursor} {t : Token} {ts : List Token} {m : Mode} {k : Delimiter} {p : Position}

theorem Finds.plain (h : c.Finds .keyword t ts d e) :
    ∃ t', c.Finds .plain t' ts d e ∧ ∀ k, t.kind = .delimiter k ↔ t'.kind = .delimiter k := by
  cases h with
  | token hl ht =>
    obtain ⟨t', ht', hk⟩ := Scan.token_plain ht
    exact ⟨t', .token hl ht', hk⟩
  | unclosed hl => exact ⟨t, .unclosed hl, fun _ => .rfl⟩

/-- A head that goes on behind a token that is put back goes on in front of it. -/
theorem HeadEnds.of_mark (he : c.ending = none) (h : c.Finds m t ts d e) (hd : d.HeadEnds k p) :
    c.HeadEnds k p := by
  cases hd with
  | here ht hk hend => exact .here (h.again he ht).2.2 hk hend
  | later ht hs hb hd => exact .later (h.again he ht).2.2 hs hb hd

end Cursor

/-! ## Readers of heads -/

/-- The head that starts at `d` goes on where the reader stands. -/
structure Reader.HeadFrom (d : Cursor) (r : Reader) : Prop extends Past d r where
  ends : ∀ k p, r.edge.HeadEnds k p → d.HeadEnds k p

namespace Reading

variable {α β : Type} {d e : Cursor} {r : Reader}

/-- The step reads a part of a head. -/
def Heads (x : Reading α) : Prop :=
  ∀ d r, r.HeadFrom d → Gives x r fun _ r' => r'.HeadFrom d

theorem Heads.bind {x : Reading α} {f : α → Reading β} (hx : Heads x) (hf : ∀ a, Heads (f a)) :
    Heads (x >>= f) :=
  fun d r hr => (hx d r hr).bind fun a r' hr' => hf a d r' hr'

theorem heads_pure (a : α) : Heads (pure a) := fun _ _ hr => sat_pure hr

theorem heads_position : Heads position := 
  fun _ _ hr => position_sat.mono fun _ _ h => h.2 ▸ hr

/-- A token that ends no head leads on. -/
theorem head_next (hr : r.HeadFrom d) (mode : Mode) (hm : mode = .plain ∨ mode = .keyword)
    (hs : (r.next mode).token.kind ≠ .delimiter .semicolon)
    (hb : (r.next mode).token.kind ≠ .delimiter .leftBrace) : (r.next mode).HeadFrom d := by
  rcases hm with rfl | rfl
  · obtain ⟨ts, -, hf⟩ := hr.finds .plain rfl
    exact ⟨hr.toPast.trans (hr.next .plain rfl).toPast,
      fun k p h => hr.ends k p (.later hf hs hb h)⟩
  · obtain ⟨ts, -, hf⟩ := hr.finds .keyword rfl
    obtain ⟨t', hf', hk⟩ := hf.plain
    exact ⟨hr.toPast.trans (hr.next .keyword rfl).toPast,
      fun k p h => hr.ends k p (.later hf' (fun h => hs ((hk _).2 h)) (fun h => hb ((hk _).2 h)) h)⟩

theorem head_putBack (hr : r.HeadFrom d) (mode : Mode) (hm : mode.comments = false) :
    Gives putBack (r.next mode) fun _ r' => r'.HeadFrom d := by
  obtain ⟨ts, -, hf⟩ := hr.finds mode hm
  refine (putBack_gives hm hr.toPast).mono fun _ r' ⟨hp, _, he, _⟩ => ?_
  refine ⟨hr.toPast.trans hp, fun k p h => hr.ends k p ?_⟩
  rw [he] at h
  exact h.of_mark hr.edge_whole hf

theorem heads_expect (mode : Mode) (hm : mode = .plain ∨ mode = .keyword) (kind : Kind)
    (hs : kind ≠ .delimiter .semicolon) (hb : kind ≠ .delimiter .leftBrace) (expected : String) :
    Heads (expect mode kind expected) := by
  intro d r hr
  refine (next_sat mode).bind ?_
  rintro k _ ⟨rfl, rfl⟩
  split
  · next h => exact sat_text (head_next hr mode hm (h ▸ hs) (h ▸ hb))
  · exact gives_reject

theorem heads_expectKeyword (k : Keyword) : Heads (expectKeyword k) :=
  (heads_expect .keyword (.inr rfl) (.keyword k) nofun nofun _).bind fun _ => heads_position

theorem heads_expectIdent (expected : String) : Heads (expectIdent expected) :=
  heads_expect .plain (.inl rfl) .ident nofun nofun expected

theorem heads_expectDelimiter (k : Delimiter) (hs : k ≠ .semicolon) (hb : k ≠ .leftBrace)
    (expected : String) : Heads (expectDelimiter k expected) :=
  (heads_expect .plain (.inl rfl) (.delimiter k) (fun h => hs (Kind.delimiter.inj h))
    (fun h => hb (Kind.delimiter.inj h)) expected).bind fun _ => heads_pure ()

theorem heads_accept (k : Delimiter) (hs : k ≠ .semicolon) (hb : k ≠ .leftBrace) :
    Heads (accept k) := by
  intro d r hr
  refine (next_sat .plain).bind ?_
  rintro kind _ ⟨rfl, rfl⟩
  split
  · next h =>
    refine sat_pure (head_next hr .plain (.inl rfl) ?_ ?_)
    · exact fun h' => hs (Kind.delimiter.inj (h.symm.trans h'))
    · exact fun h' => hb (Kind.delimiter.inj (h.symm.trans h'))
  · exact (head_putBack hr .plain rfl).bind fun _ _ h => sat_pure h

theorem heads_optionally {α : Type} (k : Keyword) {f : Option Position → Reading α}
    (hf : ∀ p, Heads (f p)) : Heads (optionally k f) := by
  intro d r hr
  refine (next_sat .keyword).bind ?_
  rintro kind _ ⟨rfl, rfl⟩
  refine sat_position_bind ?_
  split
  · next h => exact hf _ d _ (head_next hr .keyword (.inr rfl) (h ▸ nofun) (h ▸ nofun))
  · exact (head_putBack hr .keyword rfl).bind fun _ r' h => hf none d r' h

theorem heads_repeatFrom {σ : Type} {s : σ} {round : σ → Reading (Round σ α)}
    (h : ∀ s, Heads (round s)) : Heads (repeatFrom s round) := by
  intro d r hr
  refine sat_repeatFrom (I := fun _ r => r.HeadFrom d) hr (fun s r hr => ?_) trivial
  refine (h s d r hr).mono ?_
  rintro (s | a) r hr <;> exact hr

end Reading

namespace Grammar

open Reading

variable {e : Cursor} {r : Reader}

theorem heads_dotted (name : String) : Heads (dotted name) := by
  refine heads_repeatFrom fun name => (heads_accept .dot nofun nofun).bind fun b => ?_
  cases b with
  | true => exact (heads_expectIdent _).bind fun _ => heads_pure _
  | false => exact heads_pure _

theorem heads_fullIdent : Heads fullIdent :=
  (heads_expectIdent _).bind fun first => heads_position.bind fun _ =>
    (heads_dotted first).bind fun _ => heads_pure _

theorem heads_messageType : Heads messageType := by
  refine (heads_accept .dot nofun nofun).bind fun b => ?_
  cases b with
  | true => exact heads_position.bind fun _ => heads_fullIdent.bind fun _ => heads_pure _
  | false => exact heads_fullIdent

theorem heads_rpcType : Heads rpcType := by
  rw [rpcType_eq]
  exact (heads_expectDelimiter .leftParen nofun nofun _).bind fun _ => heads_optionally _ fun first =>
    heads_messageType.bind fun type => heads_position.bind fun last =>
      (heads_expectDelimiter .rightParen nofun nofun _).bind fun _ => heads_pure _

/-- A head starts with a keyword. -/
theorem expectKeyword_head (hr : r.Past e) (k : Keyword) : Gives (expectKeyword k) r fun p r' =>
    r.Reads r' ∧ p = r'.token.position ∧
      ∃ d, r.edge.Reaches d ∧ d.position = p ∧ r'.HeadFrom d := by
  refine (expect_gives hr .keyword rfl (.keyword k) nofun nofun _).bind ?_
  rintro _ _ ⟨rfl, hk, hreads⟩
  refine position_sat.mono ?_
  rintro _ _ ⟨rfl, rfl⟩
  refine ⟨hreads, rfl, (r.next .keyword).mark, ?_⟩
  obtain ⟨ts, -, hf⟩ := hr.finds .keyword rfl
  have hpos := hf.found.position_eq (hk ▸ nofun)
  have hmark : (r.next .keyword).mark.ending = none :=
    hf.passes.reaches.ending_eq.trans hr.edge_whole
  obtain ⟨t', hf', hk'⟩ := (hf.at_mark hr.edge_whole).plain
  have hne (k : Delimiter) : t'.kind ≠ .delimiter k := fun h =>
    nomatch hk.symm.trans ((hk' k).2 h)
  exact ⟨hf.passes.reaches, hpos.symm, ⟨hmark, hf.found.reaches, hreads.past.rounds,
    hreads.past.queue⟩, fun k p h => .later hf' (hne _) (hne _) h⟩

/-- `"(" [ "stream" ] messageType ")"` is a range from the word or the type on. -/
theorem rpcType_gives (hr : r.Past e) : Gives rpcType r fun t r' =>
    r'.Past r.edge ∧ t.extent.Within r.edge r'.edge := by
  rw [rpcType_eq]
  refine (expectDelimiter_gives hr _ _).bind fun _ r₁ h₁ => ?_
  -- the range ends with the last token of the type
  have hend (isStream : Bool) (type : String × Position) (start : Position) (r₂ : Reader)
      (h₂ : r₂.Since r.edge start) : Gives (do
        let last ← position
        expectDelimiter .rightParen ")"
        return { messageType := type.1, isStream, extent := ⟨start, last⟩ : RpcType }) r₂
        fun t r' => r'.Past r.edge ∧ t.extent.Within r.edge r'.edge := by
    refine position_sat.bind ?_
    rintro _ _ ⟨rfl, rfl⟩
    refine (expectDelimiter_gives h₂.toPast _ _).bind fun _ r₃ h₃ => sat_pure ?_
    exact ⟨h₂.toPast.trans h₃.past, h₂.start_spot.mono (.refl _) h₃.past.reached,
      h₂.last_spot.mono (.refl _) h₃.past.reached, h₂.ordered⟩
  refine optionally_gives h₁.past _ (fun r₂ h₂ => ?_) fun r₂ h₂ => ?_
  · refine (messageType_gives h₂).bind fun type r₃ h₃ => ?_
    exact hend _ type type.2 r₃ (h₃.of_reaches (h₁.past.reached.trans h₂.reached))
  · refine (messageType_gives h₂.past).bind fun type r₃ h₃ => ?_
    refine hend _ type _ r₃ ⟨(h₁.past.trans h₂.past).trans h₃.toPast, ?_, ?_, ?_⟩
    · exact h₂.spot.mono h₁.past.reached h₃.reached
    · exact h₃.last_spot.mono (h₁.past.reached.trans h₂.past.reached) (.refl _)
    · have := h₂.spot.lt
      have := h₃.last_spot.le
      rw [Option.getD_some]
      omega

end Grammar

end ProtoIdl
