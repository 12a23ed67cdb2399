import ProtoIdl.Proofs.Grammar.Collected
import ProtoIdl.Proofs.Grammar.Footing
import ProtoIdl.Proofs.Places
/-!
# Comments are read in the text

`Scan.comment` makes every comment there is: those that are handed out, those that are queued on the
way to a token, and so those that the nodes of a file collect from the queue. What holds of a comment
wherever one is read therefore holds of all of them (`TokenStream.calls_remarks`,
`Grammar.file_remarks`).
-/
namespace ProtoIdl

/-- The token is the comment that is read at `c`. -/
def Token.RemarkAt (c : Cursor) (t : Token) : Prop :=
  Scan.OpensComment c.rest ∧ t.kind = .comment ∧ ∃ d, Scan.comment c = .ok (t, d)

/-- The token is a comment of the text that starts at `c`. -/
def Token.RemarkIn (c : Cursor) (t : Token) : Prop := ∃ d, c.Reaches d ∧ t.RemarkAt d

/-! ## Scanning -/

/-- What is passed over in front of a token are comments of the text, and so is a comment that is
handed out itself. -/
theorem Source.lead_remarks (mode : Mode) (rounds : Nat) {passed : List Token} {c : Cursor}
    {s : Source} (h : s.Within c) (hpassed : ∀ t ∈ passed, t.RemarkIn c) :
    (∀ t ∈ (s.lead mode rounds passed).2.1, t.RemarkIn c) ∧
      ∀ t, (s.lead mode rounds passed).1 = .token t → t.kind = .comment → t.RemarkIn c := by
  refine lead_rule (I := fun passed s => s.Within c ∧ ∀ t ∈ passed, t.RemarkIn c)
    (Q := fun r => (∀ t ∈ r.2.1, t.RemarkIn c) ∧
      ∀ t, r.1 = .token t → t.kind = .comment → t.RemarkIn c)
    ?gap ?round ?clear ?comment ?error rounds ⟨h, hpassed⟩
  case gap =>
    intro _ s hs
    exact ⟨hs.1.moveTo (s.current.reaches_advance _), hs.2⟩
  case round =>
    intro _ s t d hs hopen ht hread
    have hremark : t.RemarkIn c := ⟨s.current, hs.1.current, hopen, hread.kind_eq, d, ht⟩
    exact ⟨hs.1.mark.moveTo hread.reaches,
      List.forall_mem_append.2 ⟨hs.2, List.forall_mem_singleton.2 hremark⟩⟩
  case clear =>
    intro _ s hs
    exact ⟨hs.2, by simp⟩
  case comment =>
    intro _ s t d hs hopen ht
    refine ⟨hs.2, ?_⟩
    rintro _ ⟨⟩ hk
    exact ⟨s.current, hs.1.current, hopen, hk, d, ht⟩
  case error =>
    intro _ s _ e hs _ _
    exact ⟨hs.2, by simp [Token.ofError]⟩

namespace TokenStream

variable {c : Cursor} {s : TokenStream}

theorem scan_remarks (mode : Mode) (h : s.Within c) (hqueue : ∀ t ∈ s.pending, t.RemarkIn c) :
    ((s.scan mode).1.kind = .comment → (s.scan mode).1.RemarkIn c) ∧
      ∀ t ∈ (s.scan mode).2.pending, t.RemarkIn c := by
  obtain ⟨hpassed, hlead⟩ := Source.lead_remarks mode s.rounds h (List.forall_mem_nil _)
  have hs := (Source.Within.lead mode s.rounds [] h).1
  unfold TokenStream.scan
  generalize s.source.lead mode s.rounds [] = r at hpassed hlead hs ⊢
  obtain ⟨lead, passed, source⟩ := r
  refine ⟨?_, List.forall_mem_append.2 ⟨hqueue, hpassed⟩⟩
  cases lead with
  | token t => exact hlead t rfl
  | clear =>
    dsimp only
    rw [Source.take, Source.current_mark]
    rcases ht : Scan.token mode source.current with e | ⟨t, e⟩
    · simp [Token.ofError]
    · intro hk
      cases (Scan.token_found mode source.current).ok ht with
      | lexed hc hd hl => exact absurd hk hl.ne_comment
      | eof hc hd hl =>
        rw [hl] at hk
        cases hk

theorem calls_remarks (cs : List Call) (h : s.Within c)
    (hqueue : ∀ t ∈ s.pending, t.RemarkIn c) :
    (∀ t ∈ (s.calls cs).1, t.kind = .comment → t.RemarkIn c) ∧
      ∀ t ∈ (s.calls cs).2.pending, t.RemarkIn c := by
  induction cs generalizing s with
  | nil => exact ⟨List.forall_mem_nil _, hqueue⟩
  | cons call cs ih =>
    cases call with
    | scan mode =>
      obtain ⟨ht, hqueue⟩ := scan_remarks mode h hqueue
      obtain ⟨hts, hqueue⟩ := ih (h.scan mode).2.1 hqueue
      rw [TokenStream.calls]
      exact ⟨List.forall_mem_cons.2 ⟨ht, hts⟩, hqueue⟩
    | unscan =>
      unfold TokenStream.calls
      split
      · next s' hu =>
        have hsame : s'.pending = s.pending := by
          unfold TokenStream.unscan at hu
          split at hu
          · rw [← Except.ok.inj hu]
          · cases hu
        exact ih (h.unscan hu) (hsame ▸ hqueue)
      · exact ih h hqueue

end TokenStream

/-! ## Files -/

/-- The stream stands in the text that starts at `c`, and only its comments are queued. -/
structure Reader.Remarks (c : Cursor) (r : Reader) : Prop where
  charted : r.Charted c
  queue : ∀ t ∈ r.stream.pending, t.RemarkIn c

theorem Reader.Remarks.putBack {c : Cursor} {r r' : Reader} (h : r.Remarks c)
    (hr : r.putBack = .ok r') : r'.Remarks c := by
  refine ⟨h.charted.putBack hr, ?_⟩
  rw [Reader.putBack_stream hr]
  exact h.queue

/-- That comments of the text are queued only is an invariant of reading. -/
def remarks (c : Cursor) : Invariant where
  holds := Reader.Remarks c
  fresh := Reader.Remarks c
  failure _ := True
  next _ h := ⟨(h.charted.scan _).2.1, (TokenStream.scan_remarks _ h.charted h.queue).2⟩
  holds_of_fresh h := h
  putBack h hr := h.putBack hr
  unexpected _ _ := trivial
  misuse _ _ := trivial
  outOfRounds := trivial

theorem sheds_remarks (c : Cursor) : (remarks c).Sheds :=
  fun _ _ h hts => ⟨h.charted, fun t ht => h.queue t (hts ht)⟩

/-- What holds of every comment of the text holds of every comment of the file that is read. -/
theorem Grammar.file_remarks {P : Comment → Prop} {opts : Options} {bytes : List UInt8}
    {file : String} {f : File} (hf : parse opts bytes file = .ok f)
    (hP : ∀ t, t.RemarkIn (Cursor.ofBytes bytes file) → P (Comment.ofToken t)) :
    ∀ k ∈ f.comments, P k := by
  obtain ⟨r, hr⟩ := parse_ok hf
  have hcollects := file_collects (sheds_remarks _) (fun _ h t ht => hP t (h.queue t ht))
    (answers_of_forall _ opts (S := fun _ => True) fun _ => trivial)
    (titles_of_forall _ (H := fun _ => True) fun _ => trivial)
    ⟨charted_ofBytes bytes file, List.forall_mem_nil _⟩
  exact (hcollects.ok hr).comments

end ProtoIdl
