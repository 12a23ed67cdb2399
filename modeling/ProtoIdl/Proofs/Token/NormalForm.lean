import ProtoIdl.Proofs.Token.Literals
import ProtoIdl.Proofs.Token.Lookahead
/-!
# Strings are in normal form

A string is handed out as one literal, however many literals it was joined from and whatever their
quotes: between its quotes each quote of that kind stands behind an odd number of backslashes
(`Spelling.Escaped`), and no newline stands there. Scanned again as a text of its own it is the same
string, and nothing follows it. Main statement: `string_normal`.
-/
namespace ProtoIdl

open Spelling
open Text (isHexDigit)
open Scan (isBlank isQuote)

namespace Spelling

/-- The number of backslashes at the end of a text. -/
def slashes (w : List Char) : Nat := (w.reverse.takeWhile (· == '\\')).length

/-- Each of these quotes in the text is escaped: an odd number of backslashes stands in front of it. -/
def Escaped (quote : Char) (w : List Char) : Prop :=
  ∀ before behind, w = before ++ quote :: behind → slashes before % 2 = 1

theorem slashes_slash (w : List Char) : slashes (w ++ ['\\']) = slashes w + 1 := by
  simp [slashes]

theorem slashes_plain {x : Char} (hx : x ≠ '\\') (w : List Char) : slashes (w ++ [x]) = 0 := by
  simp [slashes, hx]

section
variable {q x : Char} {n : Nat} {w u : List Char}

/-- Behind an escape the number of backslashes is even if it was even in front of it. -/
theorem slashes_escape (hw : slashes w % 2 = 0) (x : Char) : slashes (w ++ ['\\', x]) % 2 = 0 := by
  have happ : w ++ ['\\', x] = w ++ ['\\'] ++ [x] := by simp
  rw [happ]
  by_cases hx : x = '\\'
  · subst hx
    rw [slashes_slash, slashes_slash]
    omega
  · rw [slashes_plain hx]

/-- Behind a text that leaves no backslash open, each quote in `u` is escaped, and none is left open; no
line ends in it. -/
def Guarded (quote : Char) (u : List Char) : Prop :=
  ∀ front, slashes front % 2 = 0 →
    (∀ before behind, u = before ++ quote :: behind → slashes (front ++ before) % 2 = 1) ∧
      slashes (front ++ u) % 2 = 0 ∧ '\n' ∉ u

/-- So is what stands in front of the quote that ends a literal. -/
theorem guarded_of_closes (hq : isQuote q = true) (h : closes q n (u ++ [q]) = true) :
    Guarded q u := by
  refine closes_induction hq ?_ ?_ ?_ h
  · exact fun front hfront => ⟨by simp, by simpa using hfront, by simp⟩
  · intro x u hxq hxn hxb hu front _
    obtain ⟨hquotes, hend, hline⟩ := hu (front ++ [x]) (by rw [slashes_plain hxb])
    refine ⟨fun before behind heq => ?_, by simpa using hend, ?_⟩
    · cases before with
      | nil => exact absurd (List.cons.inj heq).1 hxq
      | cons y before =>
        obtain ⟨rfl, hu⟩ := List.cons.inj heq
        simpa using hquotes before behind hu
    · simpa [hxn.symm] using hline
  · intro x u hx hu front hfront
    obtain ⟨hquotes, hend, hline⟩ := hu _ (slashes_escape hfront x)
    refine ⟨fun before behind heq => ?_, by simpa using hend, ?_⟩
    · rcases before with _ | ⟨y, _ | ⟨z, before⟩⟩
      · exact absurd (List.cons.inj heq).1 (Scan.isQuote_ne hq).1
      · obtain ⟨rfl, -⟩ := List.cons.inj heq
        rw [slashes_slash]
        omega
      · obtain ⟨hslash, hrest⟩ := List.cons.inj heq
        obtain ⟨rfl, hu⟩ := List.cons.inj hrest
        simpa [← hslash] using hquotes before behind hu
    · have hxn : '\n' ≠ x := by
        rintro rfl
        exact absurd hx (by decide)
      simpa [hxn] using hline

/-- A literal stands between two equal quotes, is written on one line, and no quote of that kind stands
between them that is not escaped. -/
theorem isStrLit_normal (h : isStrLit w = true) : ∃ q u, isQuote q = true ∧ w = q :: u ++ [q] ∧
    Escaped q u ∧ slashes u % 2 = 0 ∧ '\n' ∉ w := by
  obtain ⟨q, hq, hw, hcloses⟩ := isStrLit_cases h
  obtain ⟨hquotes, hend, hline⟩ := guarded_of_closes hq hcloses [] rfl
  refine ⟨q, inner w, hq, hw, hquotes, hend, ?_⟩
  have hqn := (Scan.isQuote_ne hq).2.symm
  rw [hw]
  simpa [hqn] using hline

end

end Spelling

namespace TokenStream

/-- At the end of a text nothing else is scanned. -/
theorem scan_end (mode : Mode) (s : TokenStream) (he : s.source.current.ending = none)
    (hend : s.source.current.rest = []) (hr : 0 < s.rounds) : (s.scan mode).1.kind = .eof := by
  have htakes : Scan.Takes mode s.source.current.rest .eof [] [] := hend ▸ Scan.takes_eof mode
  obtain ⟨e, -, -, -, hscan⟩ := s.scan_of_takes he (by simpa [hend] using hr) (by simp [hend]) htakes
  rw [hscan]
  rfl

/-- A literal that is a whole text is scanned as it is, and the end of the text comes next. -/
theorem scan_literal {v : List Char} (hv : isStrLit v = true) (file : String) {mode : Mode}
    (hs : mode.strings = true) (mode' : Mode) :
    let s := ofBytes (Utf8.encode v) file
    (s.scan mode).1 = .make .stringLit v s.source.current.position ∧
      ((s.scan mode).2.scan mode').1.kind = .eof := by
  intro s
  have hcurrent : s.source.current = ⟨v, none, Position.first file⟩ := Cursor.ofBytes_encode v file
  have hbare : ∀ x ∈ s.source.current.rest.head?, isBlank x = false ∧ x ≠ '/' := by
    obtain ⟨q, hq, hw, -⟩ := isStrLit_cases hv
    rw [hcurrent, hw]
    rintro _ ⟨⟩
    refine ⟨Quoted.isBlank_of_isQuote hq, ?_⟩
    rintro rfl
    exact absurd hq (by decide)
  have htakes : Scan.Takes mode (v ++ []) .stringLit v [] := Scan.takes_string hs hv nofun
  rw [List.append_nil] at htakes
  obtain ⟨e, -, he, hend, hscan⟩ := s.scan_of_takes (by rw [hcurrent])
    (Nat.lt_succ_self _) hbare (by rwa [hcurrent])
  rw [hscan]
  exact ⟨rfl, scan_end mode' _ he hend (Nat.succ_pos _)⟩

/-- **Strings are in normal form.** What is handed out as a string stands between two equal quotes, is
written on one line, and no quote of that kind stands between them that is not escaped. As a text of its
own it is scanned as the same string under every mode that wants strings, and nothing follows it. -/
theorem string_normal {mode : Mode} {s : TokenStream} (hk : (s.scan mode).1.kind = .stringLit) :
    let v := (s.scan mode).1.text
    (∃ q u, isQuote q = true ∧ v.toList = q :: u ++ [q] ∧ Escaped q u ∧ slashes u % 2 = 0 ∧
      '\n' ∉ v.toList) ∧
    ∀ (file : String) (mode' mode'' : Mode), mode'.strings = true →
      let s' := ofBytes (Utf8.encode v.toList) file
      (s'.scan mode').1.kind = .stringLit ∧ (s'.scan mode').1.text = v ∧
        ((s'.scan mode').2.scan mode'').1.kind = .eof := by
  have hv : isStrLit (s.scan mode).1.text.toList = true := by
    have hspelled := s.spelled_scan mode
    rwa [Token.Spelled, hk] at hspelled
  generalize (s.scan mode).1.text = v at hv
  refine ⟨isStrLit_normal hv, fun file mode' mode'' hs => ?_⟩
  obtain ⟨htoken, heof⟩ := scan_literal hv file hs mode''
  refine ⟨?_, ?_, heof⟩
  · rw [htoken]
    rfl
  · rw [htoken]
    exact String.ofList_toList

/-- A quote of the other kind is escaped where the literals are joined. -/
theorem string_normal_sample :
    let s := ofBytes (Utf8.encode "'a' \"it's\"".toList) ""
    let s' := ofBytes (Utf8.encode "'ait\\'s'".toList) ""
    (s.scan .string).1.kind = .stringLit ∧ (s.scan .string).1.text = "'ait\\'s'" ∧
      (s'.scan .literal).1.text = "'ait\\'s'" ∧ ((s'.scan .literal).2.scan .plain).1.kind = .eof := by
  intro s s'
  have hk : (s.scan .string).1.kind = .stringLit := by decide +kernel
  have htext : (s.scan .string).1.text = "'ait\\'s'" := by decide +kernel
  have hnormal := (string_normal hk).2 "" .literal .plain rfl
  rw [htext] at hnormal
  exact ⟨hk, htext, hnormal.2⟩

end TokenStream

end ProtoIdl
