import ProtoIdl.Proofs.Grammar.Saved
import ProtoIdl.Proofs.Places
/-!
# Which comments a file keeps

Where comments are kept, those between declarations are in the file that is read, each in one place
of it (`parse_comments_kept`). The exception are comments in front of an empty statement: the
semicolon claims them like a declaration does, and drops them (`comment_before_semicolon_dropped`).
-/
namespace ProtoIdl

section
variable {opts : Grammar.Options} {bytes : List UInt8} {file : String} {f : File}

/-- Every pause of a file that is read saves its comments. -/
theorem parse_saves (hopts : opts.keepComments = true) (h : parse opts bytes file = .ok f)
    {b : Cursor} (hb : f.Pauses (Cursor.ofBytes bytes file) b) : b.Saves f.comments := by
  obtain ⟨r, hr⟩ := parse_ok h
  have hend := (Grammar.file_charted opts (Grammar.charted_ofBytes bytes file)).ok hr
  have hreached : (Cursor.ofBytes bytes file).Reaches (Reader.ofBytes bytes file).edge :=
    Reader.edge_ofBytes bytes file ▸ .refl _
  have hsaves := Grammar.file_saves opts hopts (Reader.past_ofBytes hend) hreached
    (Reader.pending_ofBytes bytes file)
  obtain ⟨hopen, helements⟩ := hsaves.ok hr
  obtain ⟨a, rfl | ⟨e, he, ha⟩, hskips⟩ := hb
  · exact hopen b hskips
  · exact (he.all helements).self e rfl a ha b hskips

end

/-- Where comments are kept, those between declarations are each in one place of the file, unless an
empty statement comes next. -/
theorem parse_comments_kept (opts : Grammar.Options) (hopts : opts.keepComments = true)
    (bytes : List UInt8) (file : String) (f : File) (h : parse opts bytes file = .ok f) (b : Cursor)
    (hb : f.Pauses (Cursor.ofBytes bytes file) b) (t : Token) (ts : List Token) (d e : Cursor)
    (ht : b.Finds .plain t ts d e) (hk : t.kind ≠ .delimiter .semicolon) :
    ∀ k ∈ ts, f.comments.filter (fun j => j.extent.start.offset = k.position.offset) =
      [Comment.ofToken k] := by
  intro k hkt
  have hmem : Comment.ofToken k ∈ f.comments := parse_saves hopts h hb t ts d e ht hk k hkt
  obtain ⟨js, is, hsplit⟩ := List.append_of_mem hmem
  have hdistinct := (parse_laid h).distinct
  rw [hsplit] at hdistinct ⊢
  obtain ⟨-, hafter, hbefore⟩ := List.pairwise_append.1 hdistinct
  have hpos : (Comment.ofToken k).extent.start = k.position := rfl
  rw [List.filter_append, List.filter_cons_of_pos (by simp [hpos])]
  have hjs : js.filter (fun j => j.extent.start.offset = k.position.offset) = [] := by
    rw [List.filter_eq_nil_iff]
    intro j hj
    have : j.extent.start.offset ≠ k.position.offset := hbefore j hj _ List.mem_cons_self
    simpa using this
  have his : is.filter (fun j => j.extent.start.offset = k.position.offset) = [] := by
    rw [List.filter_eq_nil_iff]
    intro j hj
    have : k.position.offset ≠ j.extent.start.offset := (List.pairwise_cons.1 hafter).1 j hj
    simpa using this.symm
  rw [hjs, his, List.nil_append]

/-- A message behind a comment. -/
def keptText : List UInt8 := Utf8.encode "/* a */\nmessage M \x7b \x7d".toList

theorem parse_comments_kept_sample : ∃ f b t ts d e,
    parse { keepComments := true } keptText "" = .ok f ∧
      f.Pauses (Cursor.ofBytes keptText "") b ∧ b.Finds .plain t ts d e ∧
      t.kind ≠ .delimiter .semicolon ∧ ts.length = 1 ∧ ∀ k ∈ ts,
        f.comments.filter (fun j => j.extent.start.offset = k.position.offset) =
          [Comment.ofToken k] := by
  have hok : (parse { keepComments := true } keptText "").toOption.isSome = true := by
    decide +kernel
  have hend : (Cursor.ofBytes keptText "").ending = none := by decide +kernel
  have hkind : ((Reader.ofBytes keptText "").next .plain).token.kind ≠ .delimiter .semicolon := by
    decide +kernel
  have hlen : ((Reader.ofBytes keptText "").next .plain).stream.pending.length = 1 := by
    decide +kernel
  obtain ⟨ts, hts, hfinds⟩ := (Reader.past_ofBytes hend).finds .plain rfl
  rw [Reader.pending_ofBytes, List.nil_append] at hts
  have hpauses (f : File) : f.Pauses (Cursor.ofBytes keptText "") (Cursor.ofBytes keptText "") :=
    ⟨_, .inl rfl, .refl _⟩
  cases hf : parse { keepComments := true } keptText "" with
  | ok f =>
    exact ⟨f, _, _, ts, _, _, rfl, hpauses f, hfinds, hkind, hts ▸ hlen,
      parse_comments_kept _ rfl keptText "" f hf _ (hpauses f) _ ts _ _ hfinds hkind⟩
  | error e =>
    rw [hf] at hok
    cases hok

/-- A message whose field has an empty statement behind it, and a comment between the two. -/
def semicolonText : List UInt8 :=
  Utf8.encode "message M \x7b\n  int32 x = 1;\n  /* a */ ;\n\x7d".toList

/-- A comment in front of an empty statement is in no place of the file. -/
theorem comment_before_semicolon_dropped : ∃ f b t k d e,
    parse { keepComments := true } semicolonText "" = .ok f ∧
      f.Pauses (Cursor.ofBytes semicolonText "") b ∧ b.Finds .plain t [k] d e ∧
      Comment.ofToken k ∉ f.comments := by
  have hok : (parse { keepComments := true } semicolonText "").toOption.any (fun f =>
      f.comments.isEmpty && f.body.any fun m => m.body.any fun e => e.notes?.isSome &&
        decide (e.extent.last = ((Cursor.ofBytes semicolonText "").advance 25).position)) = true := by
    decide +kernel
  let b := ((Cursor.ofBytes semicolonText "").advance 25).advance 1
  let s : TokenStream := { source := ⟨b, b, b⟩, rounds := 100 }
  have hend : b.ending = none := by decide +kernel
  have hrounds : b.rest.length < s.rounds := by decide +kernel
  have hlen : (s.scan .plain).2.pending.length = 1 := by decide +kernel
  have hcomments : Mode.plain.comments = false := rfl
  obtain ⟨ts, hts, hfinds⟩ := s.scan_finds hcomments hend hrounds
  have hone : ts.length = 1 := by
    rw [hts] at hlen
    exact hlen
  obtain ⟨k, rfl⟩ := List.length_eq_one_iff.1 hone
  cases hf : parse { keepComments := true } semicolonText "" with
  | ok f =>
    rw [hf] at hok
    simp only [Except.toOption, Option.any_some, Bool.and_eq_true, List.any_eq_true,
      decide_eq_true_eq, List.isEmpty_iff] at hok
    obtain ⟨hnone, m, hm, e, he, hnotes, hlast⟩ := hok
    refine ⟨f, b, _, k, _, _, rfl, ⟨b, .inr ⟨e, ?_, .inr ⟨hnotes, _, ?_, hlast.symm, rfl⟩⟩, .refl _⟩,
      hfinds, by simp [hnone]⟩
    · cases m with
      | block head body curly notes =>
        refine .part (.top (List.mem_append_right _ hm)) (List.mem_append_right _ ?_)
        exact List.mem_map_of_mem he
      | comment k | statement s notes | fragment f | file v body => cases he
    · exact Cursor.reaches_advance _ _
  | error e =>
    rw [hf] at hok
    cases hok

end ProtoIdl
