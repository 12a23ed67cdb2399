import ProtoIdl.Proofs.Grammar.Meeting
import ProtoIdl.Proofs.Outcomes
/-!
# Malformed lexemes are reported

A malformed lexeme is an illegal token that carries its error, and the last of these errors is
remembered. A reader may look at such a token and go on; but what it finds there later is the same
token under every mode, unless it was a string, which a quote opens under some modes only
(`Cursor.Finds.recurs`). So a reader that has met an error has it in front of it (`Reader.Faces`), and
cannot but report it. There is one exception in the grammar: what is reserved is looked at as a string,
and is read as a number if it is none (`parse_malformed`).
-/
namespace ProtoIdl

open Reading Grammar

/-! ## The same lexeme under another mode -/

namespace Scan

variable {m : Mode} {c d : Cursor} {t : Token} {e : LexicalError}

theorem error_single (x : Char) (p : Position) : (single x p).error = none := by
  unfold single
  split <;> rfl

theorem word_ends (m : Mode) (p : Position) :
    Ends (word m p) c (fun t _ => t.error = none) c.Faulty :=
  (run_ends _).bind fun _ _ _ => ends_pure rfl

/-- Without a sign a malformed token is the same under every mode, unless it is a string. -/
theorem token_malformed (hm : m.numbers = false) (ht : token m c = .ok (t, d))
    (he : t.error = some e) : (∀ m', token m' c = .ok (t, d)) ∨
      m.strings = true ∧ ∃ x more, c.rest = x :: more ∧ isQuote x = true ∧
        string x c.position c = .ok (t, d) := by
  have hclear (h : t.error = none) {p : Prop} : p := absurd (he.symm.trans h) (Option.some_ne_none e)
  rcases hc : c.rest with _ | ⟨x, more⟩
  · obtain ⟨rfl, -⟩ := (token_ends_of_nil m hc).ok ht
    exact hclear rfl
  by_cases hident : Text.isIdentStart x = true
  · rw [token_of_identStart m hc hident] at ht
    exact hclear ((word_ends m c.position).ok ht)
  rw [Bool.not_eq_true] at hident
  by_cases hdigit : Text.isDigit x = true
  · rw [token_of_digit m hc hident hdigit] at ht
    exact .inl fun m' => (token_of_digit m' hc hident hdigit).trans ht
  rw [Bool.not_eq_true] at hdigit
  by_cases hquote : (isQuote x && m.strings) = true
  · rw [token, run_bind (run_here c), run_bind (run_peek (Cursor.peek_of_rest hc))] at ht
    simp only [hident, hdigit, hquote, Bool.false_eq_true, if_false, if_true] at ht
    obtain ⟨hx, hstrings⟩ := Bool.and_eq_true_iff.1 hquote
    exact .inr ⟨hstrings, x, more, rfl, hx, ht⟩
  rw [Bool.not_eq_true] at hquote
  rw [token_of_single m hc hident hdigit hquote (by rw [hm, Bool.false_and])] at ht
  obtain ⟨rfl, -⟩ := Prod.mk.inj (Except.ok.inj ht)
  exact hclear (error_single x c.position)

end Scan

/-- Whatever the mode, the token `t` is found at `c`. -/
def Cursor.Recurs (c : Cursor) (t : Token) : Prop :=
  ∀ {m t' ts d e}, c.Finds m t' ts d e → t' = t

/-- A malformed lexeme that was found without a sign is found again under every mode, unless it is a
string. -/
theorem Cursor.Finds.recurs {m : Mode} {c d e : Cursor} {t : Token} {ts : List Token}
    {fault : LexicalError} (hm : m.numbers = false) (hc : c.ending = none) (h : c.Finds m t ts d e)
    (ht : t.error = some fault) : d.Recurs t ∨
      m.strings = true ∧ ∃ x more, d.rest = x :: more ∧ Scan.isQuote x = true ∧
        Scan.string x d.position d = .ok (t, e) := by
  cases h with
  | token hl htoken =>
    refine (Scan.token_malformed hm htoken ht).imp_left fun hsame m' _ _ _ _ h' => ?_
    exact ((Finds.token (hl.again hc) (hsame m')).unique h').1.symm
  | unclosed hl => exact .inl fun h' => ((Finds.unclosed (hl.again hc)).unique h').1.symm

/-! ## The last error is ahead -/

namespace Reader

/-- The failure is the last lexical error met, or there is none of either. -/
def Reports (r : Reader) (f : Failure) : Prop :=
  ∀ e, r.stream.latestError? = some e ↔ f = .lexical e

/-- The reader has read `reserved` and a quote, and fails because no number is there. It does not
report the error `e` of the string that the quote opens. -/
structure Masks (start : Cursor) (r : Reader) (f : Failure) (e : LexicalError) : Prop where
  keyword : ∃ t, r.previous = some t ∧ t.kind = .keyword .kwReserved
  reached : start.Reaches r.mark
  string : ∃ x more t d, r.mark.rest = x :: more ∧ Scan.isQuote x = true ∧
    Scan.string x r.mark.position r.mark = .ok (t, d) ∧ t.error = some e ∧
    f = .unexpected (String.ofList [x]) "intLit" r.mark.position

/-- The reader is behind `start`, and if it has met a lexical error, the last one comes next under any
mode. -/
structure Faces (start : Cursor) (r : Reader) : Prop where
  stands : r.Stands
  reached : start.Reaches r.mark
  ahead : ∀ {e m}, r.stream.latestError? = some e → m.comments = false →
    (r.next m).token.error = some e

variable {start d e : Cursor} {m : Mode} {r : Reader} {t : Token} {ts : List Token}

theorem unexpected_eq_lexical {expected : String} {e : LexicalError} :
    r.unexpected expected = .lexical e ↔ r.token.error = some e := by
  unfold unexpected
  split <;> simp_all

theorem faces_ofBytes (file : String) {bytes : List UInt8} (h : (Utf8.decode bytes).2 = none) :
    (ofBytes bytes file).Faces (.ofBytes bytes file) where
  stands := stands_ofBytes file h
  reached := .refl _
  ahead := nofun

namespace Faces

/-- The next token is further on. -/
theorem mark_reached (h : r.Faces start) (hf : r.edge.Finds m t ts d e) : start.Reaches d :=
  (h.reached.trans h.stands.reached).trans hf.passes.reaches

/-- The last error that a reader has met behind the next token is the one of this token. -/
theorem latest_after (h : r.Faces start) (hm : m.comments = false) (hf : r.edge.Finds m t ts d e) :
    (r.after t ts d e).stream.latestError? = t.error := by
  have hlatest : (r.after t ts d e).stream.latestError? = t.error.or r.stream.latestError? := by
    cases ht : t.error <;> simp [after, TokenStream.after, TokenStream.latestError?, ht]
  cases hr : r.stream.latestError? with
  | none => rw [hlatest, hr, Option.or_none]
  | some fault =>
    have hnext := h.ahead hr hm
    rw [next_of_finds hm hf h.stands.edge_rounds] at hnext
    change t.error = some fault at hnext
    rw [hlatest, hnext, Option.some_or]

/-- What is refused is reported as it is. -/
theorem reports (h : r.Faces start) (hm : m.comments = false) (expected : String) :
    (r.next m).Reports ((r.next m).unexpected expected) := by
  obtain ⟨t, ts, d, e, hf, hr⟩ := h.stands.next_finds hm
  intro fault
  rw [unexpected_eq_lexical, hr, h.latest_after hm hf]
  rfl

/-- A token of the grammar carries no error. -/
theorem after (h : r.Faces start) (hm : m.comments = false) (hf : r.edge.Finds m t ts d e)
    (hk : t.kind ≠ .illegal) : (r.after t ts d e).Faces start where
  stands := h.stands.after hf.passes.reaches hf.found.reaches
  reached := h.mark_reached hf
  ahead he _ := by
    rw [h.latest_after hm hf, hf.found.error_eq hk] at he
    cases he

/-- A token may be put back if it comes next in any case once it is malformed. -/
theorem looked (h : r.Faces start) (hm : m.comments = false) (hf : r.edge.Finds m t ts d e)
    (ht : t.error ≠ none → d.Recurs t) :
    (r.looked t ts d).Faces start := by
  have hstands : (r.looked t ts d).Stands := h.stands.looked hf.passes.reaches
  refine ⟨hstands, h.mark_reached hf, fun he hm' => ?_⟩
  have he : t.error = some _ := (h.latest_after hm hf).symm.trans he
  obtain ⟨t', ts', d', e', hf', hr'⟩ := hstands.next_finds hm'
  rw [hr']
  exact (ht (by rw [he]; nofun) hf') ▸ he

theorem setQueue (h : r.Faces start) (ts : List Token) : (r.setQueue ts).Faces start :=
  ⟨h.stands.setQueue ts, h.reached, h.ahead⟩

/-- At the end of the text no error has been met. -/
theorem latest_of_nil (h : r.Faces start) (hr : r.edge.rest = []) : r.stream.latestError? = none := by
  obtain ⟨t, ts, d, e, hf, hnext⟩ := h.stands.next_finds (m := .plain) rfl
  have hd : d.rest = [] := by
    have hle := hf.passes.reaches.length_le
    rw [hr] at hle
    exact List.eq_nil_of_length_eq_zero (Nat.le_zero.1 hle)
  have ht : t.error = none := by
    cases hf.found with
    | lexed hc _ _ => exact absurd hd hc
    | eof _ _ ht => rw [ht, Token.make]
  cases hlatest : r.stream.latestError? with
  | none => rfl
  | some fault =>
    have hfault := h.ahead (m := .plain) hlatest rfl
    rw [hnext] at hfault
    cases ht.symm.trans hfault

end Faces

end Reader

/-! ## The whole grammar -/

/-- No reader is given up. Whether there are rounds enough is another question. -/
def Invariant.never : Invariant where
  holds _ := False
  fresh _ := False
  failure f := f = .outOfRounds
  next _ h := h
  holds_of_fresh h := h
  putBack h _ := h
  unexpected _ h := h.elim
  misuse h _ := h.elim
  outOfRounds := rfl

/-- A reader beside itself, with the last lexical error in front of it. -/
def Coupling.facing (start : Cursor) : Coupling where
  move := id
  rel _ r r' := r' = r ∧ r.Faces start
  lost := .never
  fails f r := f = .outOfRounds ∨ r.Reports f ∨
    ∃ e, r.stream.latestError? = some e ∧ r.Masks start f e

namespace Coupling

variable {start d e : Cursor} {m : Mode} {b : Bool} {r : Reader} {t : Token} {ts : List Token}

theorem facing_matched (h : r.Faces start) (hm : m.comments = false) (hf : r.edge.Finds m t ts d e)
    (ht : t.error ≠ none → d.Recurs t) :
    (facing start).Matched b (r.after t ts d e) (r.after t ts d e) where
  token := (congrFun Token.move_id _).symm
  keep hk := ⟨rfl, h.after hm hf hk⟩
  putBack := ⟨_, _, Reader.putBack_after, Reader.putBack_after, rfl, h.looked hm hf ht⟩

theorem facing_lawful (start : Cursor) : (facing start).Lawful where
  offset_lt _ _ _ := .rfl
  line_lt _ _ _ := .rfl
  relax h := h
  stands h := h.2.stands
  rounds h := .inr (h.1 ▸ Nat.le_refl _)
  token h := by
    rw [h.1]
    exact (congrFun Token.move_id _).symm
  pending h := by simp [h.1, facing]
  bare hl := hl.elim
  setPending ts _ h := by
    have hts : ts.map (Token.move id) = ts := by simp
    exact ⟨by rw [h.1]; exact congrArg (Reader.setQueue · _) hts, h.2.setQueue ts⟩
  next hm h hq := by
    obtain ⟨rfl, h⟩ := h
    obtain ⟨t, ts, d, e, hf, hr⟩ := h.stands.next_finds hm
    rw [hr] at hq ⊢
    refine .inr (facing_matched h hm hf fun ht => ?_)
    obtain ⟨fault, hfault⟩ := Option.ne_none_iff_exists'.1 ht
    rcases hq with hq | ⟨hk, -⟩
    · obtain ⟨hstrings, hnumbers, -⟩ := Mode.isQuiet_iff.1 hq
      refine (hf.recurs hnumbers h.stands.edge_whole hfault).resolve_right fun hstring => ?_
      exact absurd (hstring.1.symm.trans hstrings) nofun
    · exact absurd (hf.found.error_eq hk) ht
  string hm h hk := by
    obtain ⟨rfl, h⟩ := h
    obtain ⟨t, ts, d, e, hf, hr⟩ := h.stands.next_finds hm
    rw [hr] at hk ⊢
    exact .inr ⟨rfl, h.after hm hf (hk ▸ nofun)⟩
  refused expected hm h := .inr (.inl (h.2.reports hm expected))
  outOfRounds _ := .inl rfl
  loose_fails _ _ := False.elim
  queueless _ _ h := h
  lost_unexpected _ h := h.elim
  lost_fails _ h := .inl h

theorem facing_follows (start : Cursor) : (facing start).Follows where
  toLawful := facing_lawful start
  reserved := by
    rintro _ r ⟨rfl, h⟩ hkeyword
    have hthen := couples_reservedAs (facing_lawful start)
    obtain ⟨t, ts, d, e, hf, hr⟩ := h.stands.next_finds (m := .string) rfl
    have hpeek : peek .string r = .ok t.kind (r.looked t ts d) := by
      rw [run_peek (hr ▸ Reader.putBack_after), hr]
      rfl
    rw [reservedItem, run_bind hpeek]
    by_cases hrecurs : t.error ≠ none → d.Recurs t
    · exact (hthen t.kind).2 _ _ ⟨rfl, h.looked rfl hf hrecurs⟩
    -- the token is a malformed string, and its quote is refused as a number
    · obtain ⟨ht, hno⟩ := Classical.not_imp.1 hrecurs
      obtain ⟨fault, hfault⟩ := Option.ne_none_iff_exists'.1 ht
      obtain ⟨-, x, more, hd, hx, hstring⟩ :=
        (hf.recurs rfl h.stands.edge_whole hfault).resolve_left hno
      have hk : t.kind ≠ .stringLit := by
        rintro hk
        exact ht (hf.found.error_eq fun h => Kind.noConfusion (hk.symm.trans h))
      rw [reservedAs, if_neg hk, run_bind_error (run_ranges_quote h.stands hf hd hx)]
      exact .inr (.inr ⟨fault, (h.latest_after rfl hf).trans hfault, ⟨_, rfl, hkeyword⟩,
        h.mark_reached hf, x, more, t, e, hd, hx, hstring, hfault, rfl⟩)

end Coupling

section
variable {opts : Options} {start : Cursor} {r r' : Reader} {f : File} {e : Failure}

/-- A reader that has read a file has the last error in front of it. -/
theorem Reader.Faces.file_ok (h : r.Faces start) (hr : Grammar.file opts r = .ok f r') :
    r'.Faces start := by
  have hout := (couples_file (b := true) (Coupling.facing_follows start) opts).2 r r ⟨rfl, h⟩
  rw [hr] at hout
  obtain ⟨_, -, -, hfaces⟩ := hout.followed id id
  exact hfaces

/-- A reader that fails reports the last error, or masks it. -/
theorem Reader.Faces.file_error (h : r.Faces start) (hr : Grammar.file opts r = .error e r') :
    e = .outOfRounds ∨ r'.Reports e ∨
      ∃ fault, r'.stream.latestError? = some fault ∧ r'.Masks start e fault := by
  have hout := (couples_file (b := true) (Coupling.facing_follows start) opts).2 r r ⟨rfl, h⟩
  rw [hr] at hout
  exact hout

end

/-- The last lexical error met is reported, and no other one is, but for the error of a string behind
`reserved`: its quote is reported in its stead. -/
theorem parse_malformed (opts : Options) (chars : List Char) (file : String) (e : LexicalError) :
    let run := parseWith opts (Utf8.encode chars) file
    (run.1 = .error (.lexical e) → run.2.stream.latestError? = some e) ∧
      (run.2.stream.latestError? = some e → run.1 = .error (.lexical e) ∨
        ∃ f, run.1 = .error f ∧ run.2.Masks (.ofBytes (Utf8.encode chars) file) f e) := by
  have hwhole : (Utf8.decode (Utf8.encode chars)).2 = none := by rw [Utf8.decode_encode]
  have hleft := Reader.left_ofBytes file hwhole
  have hfaces := Reader.faces_ofBytes file hwhole
  cases hr : Grammar.file opts (.ofBytes (Utf8.encode chars) file) with
  | ok f r =>
    have hrun : parseWith opts (Utf8.encode chars) file = (.ok f, r) := by
      rw [parseWith, Reading.outcome, hr]
    have hnone := (hfaces.file_ok hr).latest_of_nil ((file_left opts hleft).ok hr).2
    rw [hrun]
    refine ⟨fun hf => ?_, fun he => ?_⟩
    · cases hf
    · cases hnone.symm.trans he
  | error f r =>
    have hrun : parseWith opts (Utf8.encode chars) file = (.error f, r) := by
      rw [parseWith, Reading.outcome, hr]
    rw [hrun]
    rcases hfaces.file_error hr with rfl | hreports | ⟨fault, hlatest, hmasks⟩
    · exact absurd rfl ((lasts_file opts _ (Nat.le_refl _) _ hleft).error hr)
    · refine ⟨fun hf => (hreports e).2 (Except.error.inj hf), fun he => .inl ?_⟩
      rw [(hreports e).1 he]
    · refine ⟨fun hf => ?_, fun he => .inr ⟨f, rfl, ?_⟩⟩
      · obtain ⟨_, _, _, _, -, -, -, -, rfl⟩ := hmasks.string
        cases hf
      · obtain rfl := Option.some.inj (hlatest.symm.trans he)
        exact hmasks

/-- A comment that is not closed is reported. -/
theorem parse_malformed_sample :
    let e : LexicalError := ⟨.unterminatedComment, { file := "", offset := 8, line := 1, column := 9 }⟩
    parse {} (Utf8.encode "message /* M".toList) "" = .error (.lexical e) ∧
      (parseWith {} (Utf8.encode "message /* M".toList) "").2.stream.latestError? = some e := by
  intro e
  have herror : parse {} (Utf8.encode "message /* M".toList) "" = .error (.lexical e) :=
    eq_error (by decide +kernel)
  exact ⟨herror, (parse_malformed {} "message /* M".toList "" e).1 herror⟩

/-- A string that is not terminated is not reported behind `reserved`: its quote is. -/
theorem reserved_masks_string :
    let run := parseWith {} (Utf8.encode "message M \x7b\n  reserved \"foo;\n\x7d".toList) ""
    let p : Position := { file := "", offset := 23, line := 2, column := 12 }
    run.2.stream.latestError? = some ⟨.unterminatedString, p⟩ ∧
      run.1 = .error (.unexpected "\"" "intLit" p) := by
  intro run p
  exact ⟨by decide +kernel, eq_error (by decide +kernel)⟩

end ProtoIdl
