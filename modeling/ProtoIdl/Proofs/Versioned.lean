import ProtoIdl.Proofs.Grammar.Peeked
import ProtoIdl.Proofs.Grammar.Skipped
import ProtoIdl.Proofs.Token.Initial
/-!
# The version of a file

A version that is read is written out as the grammar has it: the keyword, an equals sign, a quote, the
word `proto3`, the same quote and a semicolon (`VersionText`). The quotes are tokens of their own and
no string is read, so white space and comments may stand inside them, as between any two tokens. A text
that starts with the keyword and does not go on in this way is no file. Main statement:
`version_written`.
-/
namespace ProtoIdl

open Scan (isQuote)

/-- The text `s` starts with a statement of the version, and `t` is what stands behind it. -/
def VersionText (s t : List Char) : Prop :=
  ∃ q s₁ s₂ s₃ s₄ s₅, isQuote q = true ∧ s = "syntax".toList ++ s₁ ∧ Skips s₁ ('=' :: s₂) ∧
    Skips s₂ (q :: s₃) ∧ Skips s₃ ("proto3".toList ++ s₄) ∧ Skips s₄ (q :: s₅) ∧ Skips s₅ (';' :: t)

/-- The version is that of the grammar, and its extent is that of a statement in the text. -/
structure Noted.VersionIn (chars : List Char) (file : String) (v : Noted Version) : Prop where
  text : v.item.text = "proto3"
  written : ∃ before s behind t, chars = before ++ s ∧ chars = behind ++ ';' :: t ∧
    v.notes.extent = ⟨(Position.first file).after before, (Position.first file).after behind⟩ ∧
      VersionText s t

/-! ## Reading -/

namespace Reader

variable {r : Reader} {e : Cursor}

/-- What reads as a word is one. -/
theorem Stands.next_word {x : Char} {w : List Char} (h : r.Stands)
    (htext : (r.next .plain).token.text.toList = x :: w) (hx : Text.isIdentStart x = true) :
    (r.next .plain).token.kind = .ident := by
  obtain ⟨t, ts, d, e, hf, hr⟩ := h.next_finds (m := .plain) rfl
  rw [hr] at htext ⊢
  replace htext : t.text.toList = x :: w := htext
  show t.kind = .ident
  cases hf with
  | unclosed hl =>
    obtain ⟨⟨y, more, hrest, -⟩, rfl, -⟩ := hl.unclosed_eq
    rw [Token.malformed, String.toList_ofList, hrest] at htext
    obtain ⟨rfl, -⟩ := List.cons.inj htext
    exact absurd hx (by decide)
  | token hl ht =>
    rcases hd : d.rest with _ | ⟨y, rest⟩
    · obtain ⟨rfl, -⟩ := (Scan.token_ends_of_nil .plain hd).ok ht
      cases htext
    · obtain ⟨more, hmore⟩ := Scan.plain_begins hd ht
      rw [htext] at hmore
      obtain ⟨rfl, -⟩ := List.cons.inj hmore
      rw [Scan.token_of_identStart .plain hd hx] at ht
      have hword : Scan.Gives (Scan.word .plain d.position) fun t => t.kind = .ident :=
        Scan.Gives.after fun _ => Scan.gives_pure rfl
      exact (hword d).ok ht

/-- A token of the grammar stands where its text does. -/
theorem Stands.next_position (h : r.Stands) {mode : Mode} (hm : mode.comments = false)
    (hi : (r.next mode).token.kind ≠ .illegal) :
    (r.next mode).token.position = (r.next mode).mark.position := by
  obtain ⟨t, ts, d, e, hf, hr⟩ := h.next_finds hm
  rw [hr] at hi ⊢
  exact hf.found.position_eq hi

end Reader

theorem Delimiter.isQuote_of_ofChar? {x : Char} (h : ofChar? x = some .quote) : isQuote x = true := by
  unfold ofChar? at h
  split at h <;> cases h <;> rfl

namespace Grammar

open Reading Reader

variable {r : Reader} {e : Cursor} {s : List Char}

/-- A token with the text `w` was read behind a gap, and it stands in the text that starts at `e`. -/
structure Got (e : Cursor) (r : Reader) (w : List Char) (r' : Reader) : Prop where
  behind : r'.Behind e
  gap : Skips r.edge.rest r'.mark.rest
  text : r'.mark.rest = w ++ r'.edge.rest
  position : r'.token.position = r'.mark.position

theorem Got.skips {r' : Reader} {w : List Char} (h : Got e r w r') :
    Skips r.edge.rest (w ++ r'.edge.rest) := h.text ▸ h.gap

theorem next_got {m : Mode} (hr : r.Behind e) (hm : m.comments = false)
    (hc : (r.next m).token.kind ≠ .comment) (hi : (r.next m).token.kind ≠ .illegal)
    (hs : (r.next m).token.kind ≠ .stringLit) :
    Got e r (r.next m).token.text.toList (r.next m) where
  behind := hr.next m
  gap := next_skips hc hi
  text := next_covers hc hi hs
  position := hr.toStands.next_position hm hi

/-- A token that was expected is there. -/
theorem expect_got {m : Mode} {k : Kind} (expected : String) (hr : r.Behind e)
    (hm : m.comments = false) (hc : k ≠ .comment) (hi : k ≠ .illegal) (hs : k ≠ .stringLit) :
    Sat (expect m k expected) r (fun w r' => k.Spells w.toList ∧ Got e r w.toList r')
      fun _ => True := by
  refine (next_sat m).bind ?_
  rintro _ _ ⟨rfl, rfl⟩
  split
  · next hk =>
    have hspelled := r.spelled_next m
    rw [Token.Spelled, hk] at hspelled
    exact sat_text ⟨hspelled, next_got hr hm (hk ▸ hc) (hk ▸ hi) (hk ▸ hs)⟩
  · exact reject_sat trivial

theorem expectDelimiter_got {d : Delimiter} (expected : String) (hd : d ≠ .quote)
    (hr : r.Behind e) : Sat (expectDelimiter d expected) r (fun _ r' => Got e r [d.char] r')
      fun _ => True := by
  refine (expect_got (m := .plain) (k := .delimiter d) expected hr rfl (by simp) (by simp)
    (by simp)).bind ?_
  rintro w r' ⟨⟨x, hx, hchar⟩, hgot⟩
  rw [hx, Delimiter.eq_char hchar hd] at hgot
  exact sat_pure hgot

theorem expectKeyword_got (k : Keyword) (hr : r.Behind e) : Sat (expectKeyword k) r
    (fun p r' => Got e r k.word.toList r' ∧ p = r'.mark.position) fun _ => True := by
  refine (expect_got (m := .keyword) (k := .keyword k) k.word hr rfl (by simp) (by simp)
    (by simp)).bind ?_
  rintro w r' ⟨hw, hgot⟩
  replace hw : w.toList = k.word.toList := hw
  rw [hw] at hgot
  exact sat_position_bind (f := pure) (sat_pure ⟨hgot, hgot.position⟩)

theorem finish_got (start : Position) (hr : r.Behind e) : Sat (finish start) r
    (fun n r' => Got e r [';'] r' ∧ n.extent = ⟨start, r'.mark.position⟩) fun _ => True := by
  refine (expectDelimiter_got (d := .semicolon) ";" (by simp) hr).bind fun _ r' h => ?_
  exact sat_position_bind (sat_pure ⟨h, by rw [h.position]⟩)

/-- The word that is asked for is an identifier. -/
theorem proto3_got (hr : r.Behind e) (hword : (r.next .plain).token.text = "proto3") :
    Got e r "proto3".toList (r.next .plain) := by
  have htext : (r.next .plain).token.text.toList = "proto3".toList := by rw [hword]
  have hident := hr.toStands.next_word (x := 'p') (w := "roto3".toList) htext (by decide)
  have hgot := next_got (m := .plain) hr rfl (by simp [hident]) (by simp [hident]) (by simp [hident])
  rwa [htext] at hgot

/-- A version that is read starts and ends where its statement does. -/
theorem version_text (hr : r.Behind e) : Sat version r (fun v _ => v.item.text = "proto3" ∧
    ∃ (c d : Cursor) (t : List Char), e.Reaches c ∧ e.Reaches d ∧ Skips r.edge.rest c.rest ∧
      d.rest = ';' :: t ∧ v.notes.extent = ⟨c.position, d.position⟩ ∧ VersionText c.rest t)
    fun _ => True := by
  refine (expectKeyword_got .kwSyntax hr).bind fun start r₁ ⟨h₁, hstart⟩ => ?_
  refine (expectDelimiter_got (d := .equals) "=" (by simp) h₁.behind).bind fun _ r₂ h₂ => ?_
  refine (expect_got (m := .plain) (k := .delimiter .quote) "quote" h₂.behind rfl (by simp) (by simp)
    (by simp)).bind fun quote r₃ ⟨hquote, h₃⟩ => ?_
  obtain ⟨q, hq, hchar⟩ := hquote
  rw [hq] at h₃
  refine (next_sat .plain).bind ?_
  rintro k _ ⟨-, rfl⟩
  refine sat_text_bind ?_
  split
  · exact Sat.bind_of_fails (reject_sat trivial)
  next hword =>
  have h₄ := proto3_got h₃.behind (Decidable.not_not.1 hword)
  generalize r₃.next .plain = r₄ at h₄ ⊢
  refine (next_sat .plain).bind ?_
  rintro k _ ⟨rfl, rfl⟩
  refine sat_text_bind ?_
  split
  · exact Sat.bind_of_fails (reject_sat trivial)
  next hclosing =>
  obtain ⟨hkind, hsame⟩ : (r₄.next .plain).token.kind = .delimiter .quote ∧
      (r₄.next .plain).token.text = quote := by simpa [not_or] using hclosing
  have h₅ := next_got (m := .plain) h₄.behind rfl (by simp [hkind]) (by simp [hkind])
    (by simp [hkind])
  rw [hsame, hq] at h₅
  generalize r₄.next .plain = r₅ at h₅ ⊢
  refine (finish_got start h₅.behind).bind fun notes r₆ ⟨h₆, hextent⟩ => sat_pure ?_
  have htext : VersionText r₁.mark.rest r₆.edge.rest :=
    ⟨q, r₁.edge.rest, r₂.edge.rest, r₃.edge.rest, r₄.edge.rest, r₅.edge.rest,
      Delimiter.isQuote_of_ofChar? hchar, h₁.text, h₂.skips, h₃.skips, h₄.skips, h₅.skips, h₆.skips⟩
  exact ⟨rfl, r₁.mark, r₆.mark, r₆.edge.rest, h₁.behind.mark_reached, h₆.behind.mark_reached, h₁.gap,
    h₆.text, hstart ▸ hextent, htext⟩

/-! ## The first declaration -/

/-- The word that starts a file is read, unless it is refused: what is read there is the word. -/
theorem opening_word {m : Mode} {y : Char} {w : List Char}
    (hs : Skips r.edge.rest ("syntax".toList ++ s)) (hc : (r.next m).token.kind ≠ .comment)
    (hi : (r.next m).token.kind ≠ .illegal) (hl : (r.next m).token.kind ≠ .stringLit)
    (htext : (r.next m).token.text.toList = y :: w) (hy : IsSolid y) :
    y :: w ++ (r.next m).edge.rest = "syntax".toList ++ s := by
  have hgap := next_skips hc hi
  rw [next_covers hc hi hl, htext] at hgap
  exact hgap.unique hs hy ⟨by decide, by decide⟩

theorem opening_ne_eof {m : Mode} (hr : r.Stands) (hm : m.comments = false)
    (hs : Skips r.edge.rest ("syntax".toList ++ s)) : (r.next m).token.kind ≠ .eof := by
  intro hk
  have hgap := next_skips (r := r) (m := m) (by simp [hk]) (by simp [hk])
  have hend : (r.next m).mark.rest = [] := by
    obtain ⟨t, ts, d, e, hf, hr⟩ := hr.next_finds hm
    rw [hr] at hk ⊢
    cases hf.found with
    | lexed _ _ hl => exact absurd hk hl.ne_eof
    | eof hc => exact hc
  rw [hend] at hgap
  cases hgap.behind hs ⟨by decide, by decide⟩

/-- What starts another declaration is a word that starts in another way. -/
theorem production_word {k : Kind} {p : Production} (h : Scope.file.production? k = some p) :
    ∃ w, k = .keyword w ∧ 2 ≤ w.word.toList.length ∧ ¬ ['s', 'y'] <+: w.word.toList ∧
      w.word.toList.head?.all (fun y => !Scan.isBlank y && y != '/') = true := by
  cases k with
  | keyword w =>
    refine ⟨w, rfl, ?_⟩
    cases w <;> first | decide +kernel | exact nomatch h
  | _ => exact nomatch h

theorem opening_production {k : Keyword} {m : Mode} (hs : Skips r.edge.rest ("syntax".toList ++ s))
    (hk : (r.next m).token.kind = .keyword k) (hlen : 2 ≤ k.word.toList.length)
    (hhead : k.word.toList.head?.all (fun y => !Scan.isBlank y && y != '/') = true) :
    ['s', 'y'] <+: k.word.toList := by
  have hspelled := r.spelled_next m
  rw [Token.Spelled, hk] at hspelled
  replace hspelled : (r.next m).token.text.toList = k.word.toList := hspelled
  obtain ⟨y, w, hw⟩ := List.exists_cons_of_length_pos (show 0 < k.word.toList.length by omega)
  have hsolid : IsSolid y := by
    rw [hw] at hhead
    simpa [IsSolid] using hhead
  have hopens := opening_word hs (by simp [hk]) (by simp [hk]) (by simp [hk])
    (hspelled.trans hw) hsolid
  rw [← hw] at hopens
  have hsyntax : ['s', 'y'] <+: "syntax".toList ++ s := ⟨"ntax".toList ++ s, rfl⟩
  exact List.prefix_of_prefix_length_le hsyntax ⟨_, hopens⟩ hlen

/-- Where a file starts with the keyword, a version is read or nothing. -/
theorem fileHead_versioned (opts : Options) {a : List Char} (hr : r.Behind e) (ha : r.Around a a)
    (hs : Skips a ("syntax".toList ++ s)) : Sat (fileHead opts true) r
      (fun l _ => (∀ comments, l ≠ .ended comments) ∧ ∃ t, VersionText ("syntax".toList ++ s) t)
      fun _ => True := by
  have hsolid : IsSolid 's' := ⟨by decide, by decide⟩
  have hopens {q : Reader} (hq : q.Around a a) : Skips q.edge.rest ("syntax".toList ++ s) :=
    Skips.behind (hq.edge.elim id id) hs hsolid
  have hfirst : ((r.peeked .plain).setQueue []).Around a a := by
    have h : (r.peeked .plain).Around a a := ha.putBack (m := .plain) rfl
    exact ⟨h.edge, h.mark⟩
  have hstands : ((r.peeked .plain).setQueue []).Behind e :=
    staysBehind_queueless e _ [] ((hr.next .plain).putBack (q := r.peeked .plain) rfl)
  have hpeeked : (((r.peeked .plain).setQueue []).peeked .keyword).Around a a :=
    hfirst.putBack (m := .keyword) rfl
  have hword := hopens hfirst
  refine sat_run_bind (run_peeked .plain r) (sat_run_bind (run_pending _)
    (sat_run_bind (run_setPending [] _) (sat_run_bind (run_peeked .keyword _) ?_)))
  split
  · next hk => exact absurd hk (opening_ne_eof hstands.toStands rfl hword)
  · next hk =>
    have hsemicolon := next_delimiter hk (by simp)
    have hchars := opening_word hword (by simp [hk]) (by simp [hk]) (by simp [hk])
      hsemicolon ⟨by decide, by decide⟩
    cases hchars
  · refine (version_text ((hstands.next .keyword).putBack (q := Reader.peeked _ _) rfl)).bind ?_
    rintro v r' ⟨-, c, d, t, -, -, hgap, -, -, htext⟩
    obtain ⟨q, s₁, s₂, s₃, s₄, s₅, hq, hc, hrest⟩ := htext
    rw [hc] at hgap
    have hsame := hgap.unique (hopens hpeeked) hsolid hsolid
    exact sat_pure ⟨by simp, t, q, s₁, s₂, s₃, s₄, s₅, hq, hsame.symm, hrest⟩
  · split
    · exact (sat_trivial _ _).bind fun _ _ _ => reject_sat trivial
    · next hp =>
      obtain ⟨k, hk, hlen, hne, hhead⟩ := production_word hp
      exact absurd (opening_production hword hk hlen hhead) hne

/-! ## Rounds of a file -/

section
variable {bytes : List UInt8} {file : String} {f : File}

theorem version_in (hr : r.Behind (Cursor.ofBytes bytes file)) :
    Sat version r (fun v _ => v.VersionIn (Utf8.decode bytes).1 file) fun _ => True := by
  refine (version_text hr).mono ?_
  rintro v _ ⟨hv, c, d, t, ⟨n, hn⟩, ⟨m, hm⟩, -, hd, hextent, htext⟩
  refine ⟨hv, (Utf8.decode bytes).1.take n, c.rest, (Utf8.decode bytes).1.take m, t, ?_, ?_, ?_, htext⟩
  · rw [hn]
    exact (List.take_append_drop n _).symm
  · rw [← hd, hm]
    exact (List.take_append_drop m _).symm
  · rw [hextent, hn, hm]
    rfl

/-- The version of a file, if it has one, is one of the text. -/
def VersionsIn (chars : List Char) (file : String) (f : File) : Prop :=
  ∀ v, f.version = some v → v.VersionIn chars file

theorem fileTail_version {chars : List Char} {l : Landing} (hf : VersionsIn chars file f)
    (hl : ∀ comments v, l = .version comments v → v.VersionIn chars file) :
    Sat (fileTail f l) r (fun a _ => match a with
      | .again g | .done g => VersionsIn chars file g) fun _ => True := by
  cases l with
  | ended comments => exact sat_pure hf
  | skipped => exact sat_pure hf
  | version comments v =>
    have hv := hl comments v rfl
    refine sat_run_bind (run_attach comments v.notes r) (sat_pure ?_)
    rintro _ ⟨⟩
    exact ⟨hv.text, hv.written⟩
  | element comments e => exact (sat_trivial _ _).bind fun _ _ _ => sat_pure hf

/-- A round keeps the version, or reads one. -/
theorem fileRound_version (opts : Options) (hr : r.Behind (Cursor.ofBytes bytes file))
    (hf : VersionsIn (Utf8.decode bytes).1 file f) : Sat (fileRound opts f) r
      (fun a r' => r'.Behind (Cursor.ofBytes bytes file) ∧ match a with
        | .again g | .done g => VersionsIn (Utf8.decode bytes).1 file g) fun _ => True := by
  have hkept := keeps_fileRound (staysBehind_queueless (Cursor.ofBytes bytes file)) opts f r hr
  refine hkept.and ?_
  have hpeeked : (r.peeked .plain).Behind (Cursor.ofBytes bytes file) :=
    (hr.next .plain).putBack (q := r.peeked .plain) rfl
  have hstart := staysBehind_queueless _ _ [] hpeeked
  have hhead : Sat (fileHead opts (isFresh f)) r (fun l _ => ∀ comments v, l = .version comments v →
      v.VersionIn (Utf8.decode bytes).1 file) fun _ => True := by
    refine sat_run_bind (run_peeked .plain r) (fileNext_sat rfl rfl ?_ ?_ (fun _ => ?_) fun p => ?_)
    · exact fun _ _ _ h => nomatch h
    · exact fun _ _ h => nomatch h
    · refine (version_in ((hstart.next .keyword).putBack (q := Reader.peeked _ _) rfl)).mono ?_
      rintro v _ hv _ _ ⟨⟩
      exact hv
    · exact (sat_trivial _ _).mono fun _ _ _ _ _ h => nomatch h
  rw [fileRound_eq]
  exact hhead.bind fun l r' hl => fileTail_version hf hl

/-- The version of a file stands in its text. -/
theorem file_version (opts : Options) (hr : r.Behind (Cursor.ofBytes bytes file)) :
    Sat (Grammar.file opts) r (fun g _ => VersionsIn (Utf8.decode bytes).1 file g)
      fun _ => True := by
  have hnone : VersionsIn (Utf8.decode bytes).1 file {} := fun _ h => nomatch h
  refine sat_repeatFrom (I := fun g q => q.Behind (Cursor.ofBytes bytes file) ∧
    VersionsIn (Utf8.decode bytes).1 file g) ⟨hr, hnone⟩ ?_ trivial
  rintro g q ⟨hq, hg⟩
  refine (fileRound_version opts hq hg).mono ?_
  rintro (g' | g') q' ⟨hq', hg'⟩
  · exact ⟨hq', hg'⟩
  · exact hg'

end

end Grammar

/-- What is read as a version is written as the grammar has it, in the text at its place, with nothing
but white space and comments between the parts. A text that starts with the keyword and does not go on
in that way is refused. -/
theorem version_written (opts : Grammar.Options) (bytes : List UInt8) (file : String) :
    (∀ f v, parse opts bytes file = .ok f → f.version = some v →
      v.VersionIn (Utf8.decode bytes).1 file) ∧
    ∀ s, Skips (Utf8.decode bytes).1 ("syntax".toList ++ s) →
      (∀ t, ¬ VersionText ("syntax".toList ++ s) t) → ∃ e, parse opts bytes file = .error e := by
  refine ⟨fun f v hf hv => ?_, fun s hs hno => ?_⟩
  · obtain ⟨r, hr⟩ := parse_ok hf
    have hstart := Reader.behind_ofBytes file (parse_whole hf)
    exact (Grammar.file_version opts hstart).ok hr v hv
  · cases hparse : parse opts bytes file with
    | error e => exact ⟨e, rfl⟩
    | ok f =>
      have hstart := Reader.behind_ofBytes file (parse_whole hparse)
      have hhead := Grammar.fileHead_versioned opts hstart ⟨.inl (.refl _), .inl (.refl _)⟩ hs
      obtain ⟨k, g, q, r', -, hturned, hdone⟩ := parse_turned hparse
      cases hturned with
      | refl =>
        obtain ⟨comments, hended, -⟩ := Grammar.fileRound_done hdone
        exact absurd rfl ((hhead.ok hended).1 comments)
      | step hfirst _ =>
        obtain ⟨l, r₁, hl, -⟩ := Grammar.fileRound_again hfirst
        obtain ⟨-, t, ht⟩ := hhead.ok hl
        exact absurd ht (hno t)

/-- No version is written here. -/
theorem not_versionText_proto2 (t : List Char) :
    ¬ VersionText ("syntax".toList ++ " = \"proto2\";".toList) t := by
  rintro ⟨q, s₁, s₂, s₃, s₄, s₅, hq, hs, hequals, hquote, hword, -, -⟩
  obtain rfl := List.append_cancel_left hs
  have hequals : '=' :: s₂ = '=' :: " \"proto2\";".toList :=
    hequals.unique (.blank rfl (.refl _)) ⟨rfl, by decide⟩ ⟨rfl, by decide⟩
  obtain rfl := (List.cons.inj hequals).2
  have hquote : q :: s₃ = '"' :: "proto2\";".toList :=
    hquote.unique (.blank rfl (.refl _)) (isSolid_of_isQuote hq) ⟨rfl, by decide⟩
  obtain rfl := (List.cons.inj hquote).2
  have hword : "proto3".toList ++ s₄ = "proto2\";".toList := hword.eq_of_solid ⟨rfl, by decide⟩
  cases hword

/-- A version behind a comment, and one that is refused. -/
theorem version_written_sample :
    (∃ f v, parse {} (Utf8.encode "/* a */ syntax = 'proto3' ;".toList) "" = .ok f ∧
      f.version = some v ∧ v.VersionIn "/* a */ syntax = 'proto3' ;".toList "") ∧
    ∃ e, parse {} (Utf8.encode "syntax = \"proto2\";".toList) "" = .error e := by
  refine ⟨?_, ?_⟩
  · have hparse : (parse {} (Utf8.encode "/* a */ syntax = 'proto3' ;".toList) "").toOption.any
        (·.version.isSome) = true := by decide +kernel
    obtain ⟨f, hf, hv⟩ := exists_ok hparse
    obtain ⟨v, hv⟩ := Option.isSome_iff_exists.1 hv
    have hin := (version_written {} _ "").1 f v hf hv
    rw [Utf8.decode_encode] at hin
    exact ⟨f, v, hf, hv, hin⟩
  · refine (version_written {} _ "").2 " = \"proto2\";".toList ?_ not_versionText_proto2
    rw [Utf8.decode_encode]
    exact .refl _

/-- A blank behind the quote is not refused. -/
theorem version_spaced : ∃ f,
    parse {} (Utf8.encode ("syntax = \"".toList ++ " proto3".toList ++ "\";".toList)) "" = .ok f ∧
      f.version.isSome = true ∧ " proto3" ≠ "proto3" := by
  have hparse : (parse {} (Utf8.encode ("syntax = \"".toList ++ " proto3".toList ++ "\";".toList))
      "").toOption.any (·.version.isSome) = true := by decide +kernel
  obtain ⟨f, hf, hv⟩ := exists_ok hparse
  exact ⟨f, hf, hv, by decide⟩

end ProtoIdl
