import ProtoIdl.Proofs.Token.Stream
/-!
# The loops of the scanner end

Three loops of the scanner count their rounds down: the one over white space and comments, the one
over the characters of a literal, and the one over literals that are joined. Each round takes a
character at least, so once there are more rounds than characters their number makes no difference:
`Source.lead_congr`, `Scan.body_congr`, `Scan.literals_congr`. A stream has that many rounds after
any calls (`TokenStream.length_lt_rounds_calls`).
-/
namespace ProtoIdl

namespace Scan

variable {α β : Type} {c : Cursor}

/-- Two steps that are alike and go on alike are alike. -/
theorem bind_congr {x y : Scan α} {f g : α → Scan β} {Q : α → Cursor → Prop}
    {E : LexicalError → Prop} (hxy : x c = y c) (hx : Ends x c Q E)
    (h : ∀ a d, Q a d → f a d = g a d) : (x >>= f) c = (y >>= g) c := by
  cases hc : x c with
  | ok p => rw [run_bind hc, run_bind (hxy.symm.trans hc), h _ _ (hx.ok hc)]
  | error e => rw [run_bind_error hc, run_bind_error (hxy.symm.trans hc)]

theorem get_ends : Ends get c (fun a d => a = c ∧ d = c) c.Faulty := ⟨rfl, rfl⟩

theorem body_congr (outer close : Char) (latest : List Char) {m n : Nat}
    (hm : c.rest.length < m) (hn : c.rest.length < n) :
    body outer close m latest c = body outer close n latest c := by
  induction m generalizing c latest n with
  | zero => omega
  | succ m ih =>
    obtain ⟨n, rfl⟩ : ∃ k, n = k + 1 := ⟨n - 1, by omega⟩
    refine bind_congr rfl peek_ends ?_
    rintro _ c ⟨rfl, rfl⟩
    rcases hc : c.rest with _ | ⟨x, rest⟩
    · rfl
    have hshort : ∀ d, (c.advance 1).Reaches d → d.rest.length < m ∧ d.rest.length < n := by
      intro d hd
      have hle := hd.length_le
      rw [Cursor.rest_advance, List.length_drop] at hle
      have : 0 < c.rest.length := by simp [hc]
      omega
    simp only [List.head?_cons]
    refine bind_congr rfl get_ends ?_
    rintro _ c ⟨rfl, rfl⟩
    refine bind_congr rfl (skip_ends 1 (E := c.Faulty)) ?_
    rintro _ _ rfl
    split
    · rfl
    · split
      · rfl
      · split
        · refine bind_congr rfl (forward_escape _ (.refl _)) ?_
          rintro e d ⟨hd, -⟩
          cases e with
          | valid escaped => exact ih _ (hshort d hd).1 (hshort d hd).2
          | invalid read => rfl
        · split
          · exact ih _ (hshort _ (.refl _)).1 (hshort _ (.refl _)).2
          · exact ih _ (hshort _ (.refl _)).1 (hshort _ (.refl _)).2

/-- Each literal has a quote in front. -/
theorem literals_congr (outer : Char) (start : Position) (latest : List Char) {m n : Nat}
    (hc : c.rest ≠ []) (hm : c.rest.length ≤ m) (hn : c.rest.length ≤ n) :
    literals outer start m latest c = literals outer start n latest c := by
  induction m generalizing c latest n with
  | zero => exact absurd (List.eq_nil_of_length_eq_zero (Nat.le_zero.1 hm)) hc
  | succ m ih =>
    have hpos : 0 < c.rest.length := List.length_pos_iff.2 hc
    obtain ⟨n, rfl⟩ : ∃ k, n = k + 1 := ⟨n - 1, by omega⟩
    refine bind_congr rfl (here_ends (E := c.Faulty)) ?_
    rintro opening c ⟨-, rfl⟩
    refine bind_congr rfl peek_ends ?_
    rintro first c ⟨-, rfl⟩
    refine bind_congr rfl (skip_ends 1 (E := c.Faulty)) ?_
    rintro _ _ rfl
    have hlen : (c.advance 1).rest.length < m + 1 ∧ (c.advance 1).rest.length < n + 1 := by
      rw [Cursor.rest_advance, List.length_drop]
      omega
    refine bind_congr (body_congr _ _ _ hlen.1 hlen.2)
      (forward_body (c := c.advance 1) _ _ _ _ _ (.refl _)) ?_
    rintro b d ⟨hd, -⟩
    cases b with
    | unterminated latest => rfl
    | badEscape latest p => rfl
    | closed latest =>
      refine bind_congr rfl (forward_run (c := d) isBlank d (.refl d)) ?_
      rintro _ e ⟨he, -⟩
      have hle := (hd.trans he).length_le
      rw [Cursor.rest_advance, List.length_drop] at hle
      refine bind_congr rfl peek_ends ?_
      rintro _ e ⟨rfl, rfl⟩
      rcases he : e.rest with _ | ⟨x, rest⟩
      · rfl
      simp only [List.head?_cons]
      split
      · exact ih _ (by simp [he]) (by omega) (by omega)
      · rfl

end Scan

/-- A comment has two characters, so every round over one takes some. -/
theorem Source.lead_congr (mode : Mode) (passed : List Token) {s : Source} {m n : Nat}
    (hm : s.current.rest.length < m) (hn : s.current.rest.length < n) :
    s.lead mode m passed = s.lead mode n passed := by
  induction m generalizing s passed n with
  | zero => omega
  | succ m ih =>
    obtain ⟨n, rfl⟩ : ∃ k, n = k + 1 := ⟨n - 1, by omega⟩
    rw [Source.lead, Source.lead]
    rcases take_cases (Scan.gap_ends s.current) with ⟨b, d, hg, hd, hb⟩ | ⟨e, hg, -⟩
    · rw [hg]
      cases b with
      | false => rfl
      | true =>
        have hopen : Scan.OpensComment (s.moveTo d).mark.current.rest := hb.1 rfl
        dsimp only
        rcases take_cases (Scan.comment_ends hopen) with ⟨t, e, ht, hte⟩ | ⟨e, ht, -⟩
        · rw [ht]
          dsimp only
          split
          · rfl
          · next hk =>
            obtain ⟨k, text, hk2, hk, rfl, -⟩ | ⟨rfl, -⟩ := hte
            · have hlen : ((s.moveTo d).mark.current.advance k).rest.length < m ∧
                  ((s.moveTo d).mark.current.advance k).rest.length < n := by
                rw [current_mark, current_moveTo] at hk ⊢
                have hle := (hd ▸ s.current.reaches_advance _ : s.current.Reaches d).length_le
                rw [Cursor.rest_advance, List.length_drop]
                omega
              exact ih _ hlen.1 hlen.2
            · exact absurd (by simp [Token.malformed]) hk
        · rw [ht]
    · rw [hg]

namespace TokenStream

theorem rounds_calls (calls : List Call) (s : TokenStream) : (s.calls calls).2.rounds = s.rounds := by
  induction calls generalizing s with
  | nil => rfl
  | cons call rest ih =>
    cases call with
    | scan mode =>
      rw [TokenStream.calls]
      exact ih _
    | unscan =>
      rw [TokenStream.calls, unscan]
      split
      · next h =>
        split at h
        · obtain rfl := Except.ok.inj h
          exact ih _
        · cases h
      · exact ih _

/-- Whatever is called, a stream has more rounds than characters. -/
theorem length_lt_rounds_calls (calls : List Call) (bytes : List UInt8) (file : String) :
    ((ofBytes bytes file).calls calls).2.source.current.rest.length <
      ((ofBytes bytes file).calls calls).2.rounds := by
  have h := (Within.calls (c := Cursor.ofBytes bytes file) calls
    (s := ofBytes bytes file) (Source.within_ofBytes bytes file)).2.current.length_le
  rw [rounds_calls]
  exact Nat.lt_succ_of_le h

end TokenStream

end ProtoIdl
