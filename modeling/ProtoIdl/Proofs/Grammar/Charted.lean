import ProtoIdl.Proofs.Grammar.Invariant
import ProtoIdl.Proofs.Token.Stream
/-!
# Failures stand at true places

That the stream of a reader stands at places of the text is an invariant of reading. A token just read
names such places only, and so do the failures that refuse it. Main statement:
`Grammar.file_charted`.
-/
namespace ProtoIdl

/-- The stream stands in the text that starts at `c`. -/
def Reader.Charted (c : Cursor) (r : Reader) : Prop := r.stream.Within c

/-- The place of a failure, if it has one, is in the text that starts at `c`. -/
def Failure.Placed (c : Cursor) (e : Failure) : Prop := ∀ p, e.position? = some p → c.Sees p

namespace Reader

variable {c : Cursor} {r : Reader}

theorem Charted.putBack {r' : Reader} (h : r.Charted c) (hr : r.putBack = .ok r') :
    r'.Charted c := by
  unfold Reader.putBack at hr
  split at hr
  · cases hr
  · cases hu : r.stream.unscan with
    | error m =>
      rw [hu] at hr
      cases hr
    | ok s =>
      rw [hu] at hr
      obtain rfl := Except.ok.inj hr
      exact TokenStream.Within.unscan h hu

theorem placed_unexpected (expected : String) (h : r.token.Placed c) :
    (r.unexpected expected).Placed c := by
  unfold Reader.unexpected
  split
  · next e he =>
    rintro _ ⟨⟩
    exact h.error e he
  · rintro _ ⟨⟩
    exact h.position

end Reader

/-- To be charted is an invariant of reading. -/
def charted (c : Cursor) : Invariant where
  holds := Reader.Charted c
  fresh r := r.Charted c ∧ r.token.Placed c
  failure := Failure.Placed c
  next _ h := ⟨(TokenStream.Within.scan _ h).2.1, (TokenStream.Within.scan _ h).1⟩
  holds_of_fresh h := h.1
  putBack h hr := h.1.putBack hr
  unexpected expected h := Reader.placed_unexpected expected h.2
  misuse _ _ := nofun
  outOfRounds := nofun

namespace Grammar

open Reading

variable {c : Cursor}

theorem sat_charted {α : Type} {x : Reading α} (h : Keeps (charted c) x) {r : Reader}
    (hr : r.Charted c) : Sat x r (fun _ r' => r'.Charted c) (Failure.Placed c) := h r hr

theorem queueless_charted : (charted c).Queueless := fun _ _ h => h

/-- The end of the tokens is found only where no ill-formed octets follow. -/
theorem peek_charted (mode : Mode) {r : Reader} (hr : r.Charted c) : Sat (peek mode) r
    (fun k r' => r'.Charted c ∧ (k = .eof → c.ending = none)) (Failure.Placed c) := by
  refine (next_sat mode).bind ?_
  rintro k _ ⟨hk, rfl⟩
  obtain ⟨ht, hs, heof⟩ := TokenStream.Within.scan mode hr
  refine Sat.bind (heeds_putBack (I := charted c) _ ⟨hs, ht⟩) fun _ r' hr' => sat_pure ⟨hr', ?_⟩
  exact fun h => heof (hk.symm.trans h)

/-- A file that is read to its end has no ill-formed octets, and a failure stands in the text. -/
theorem file_charted (opts : Options) {r : Reader} (hr : r.Charted c) :
    Sat (file opts) r (fun _ _ => c.ending = none) (Failure.Placed c) := by
  have hq := queueless_charted (c := c)
  refine sat_repeatFrom (I := fun _ r => r.Charted c) hr (fun f r hr => ?_) nofun
  refine (sat_charted (keeps_commentsAhead hq) hr).bind fun comments r hr =>
    (peek_charted _ hr).bind ?_
  rintro kind r ⟨hr, heof⟩
  have refuse {Q : Round File File → Reader → Prop} :
      Sat (do let _ ← nextKeyword; reject Scope.file.expected) r Q (Failure.Placed c) :=
    (next_sat _).bind fun _ _ ⟨_, h⟩ => by
      rw [h]
      exact reject_sat (Reader.placed_unexpected _ (TokenStream.Within.scan _ hr).1)
  split
  · exact sat_pure (heof rfl)
  · exact (sat_charted (keeps_next rfl) hr).bind fun _ _ hr => sat_pure hr
  · split
    · exact refuse
    · exact (sat_charted keeps_version hr).bind fun v _ hr =>
        (sat_charted (keeps_attach hq _ _) hr).bind fun _ _ hr => sat_pure hr
  · split
    · exact refuse
    · exact (sat_charted (keeps_element hq (keeps_body hq opts) _ _ _ _) hr).bind
        fun _ _ hr => sat_pure hr

theorem charted_ofBytes (bytes : List UInt8) (file : String) :
    (Reader.ofBytes bytes file).Charted (Cursor.ofBytes bytes file) :=
  Source.within_ofBytes bytes file

end Grammar

end ProtoIdl
