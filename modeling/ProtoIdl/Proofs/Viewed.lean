import ProtoIdl.Proofs.Json.Unordered
import ProtoIdl.Proofs.Json.Text
import ProtoIdl.Proofs.Proper
/-!
# What the JSON text of an unordered view tells

Unlike the JSON text of a file, that of its unordered view tells all of the view: declarations stand in
lists by kind, and what is not taken apart holds no blocks. Main statement: `parse_view_json`.
-/
namespace ProtoIdl

/-- Every file that is read has an unordered view. Its JSON text is ASCII, and files of the same text
have the same view. -/
theorem parse_view_json {opts opts' : Grammar.Options} {bytes bytes' : List UInt8}
    {file file' : String} {f g : File} (hf : parse opts bytes file = .ok f)
    (hg : parse opts' bytes' file' = .ok g) :
    ∃ v w, View.ofFile f = .ok v ∧ View.ofFile g = .ok w ∧
      Json.IsAscii (json v).render.toList ∧ Json.IsAscii (json w).render.toList ∧
        ((json v).render = (json w).render → v = w) := by
  obtain ⟨v, hv, hvflat⟩ := View.exists_ofFile_flat (parse_allProper hf)
  obtain ⟨w, hw, hwflat⟩ := View.exists_ofFile_flat (parse_allProper hg)
  refine ⟨v, w, hv, hw, Json.isAscii_render _, Json.isAscii_render _, fun htext => ?_⟩
  exact Json.fileView_inj hvflat hwflat (Json.render_injective htext)

/-- Blanks that change places are not in the text, and not in the view. -/
theorem parse_view_json_sample : ∃ f g v w,
    parse {} (Utf8.encode "extend A \x7b \x7d".toList) "" = .ok f ∧
      parse {} (Utf8.encode "extend  A \x7b\x7d".toList) "" = .ok g ∧
        View.ofFile f = .ok v ∧ View.ofFile g = .ok w ∧
          Json.IsAscii (json v).render.toList ∧ (json v).render = (json w).render ∧ v = w := by
  have h : (parse {} (Utf8.encode "extend A \x7b \x7d".toList) "").toOption.any
      (fun f => (parse {} (Utf8.encode "extend  A \x7b\x7d".toList) "").toOption.any
        fun g => decide (((View.ofFile f).toOption.map fun v => (json v).renderAt 0) =
          (View.ofFile g).toOption.map fun w => (json w).renderAt 0)) = true := by
    decide +kernel
  obtain ⟨f, hf, h⟩ := exists_ok h
  obtain ⟨g, hg, h⟩ := exists_ok h
  obtain ⟨v, w, hv, hw, hascii, -, hinj⟩ := parse_view_json hf hg
  simp only [hv, hw, Except.toOption, Option.map_some, Option.some.injEq, decide_eq_true_eq] at h
  have htext : (json v).render = (json w).render := congrArg String.ofList h
  exact ⟨f, g, v, w, hf, hg, hv, hw, hascii, htext, hinj htext⟩

end ProtoIdl
