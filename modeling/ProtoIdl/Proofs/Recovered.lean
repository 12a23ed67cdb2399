import ProtoIdl.Proofs.Places
import ProtoIdl.Proofs.Recovery.Bodies
/-!
# Files are read back from their text

Main statement: the text of a well-formed file without comments is read, and what is read is the file
again, but for the places (`parse_render`). It holds for every style in which the text may be written.
-/
namespace ProtoIdl

variable {chars : List Char} {ws : List String}

/-- Reading starts in front of all words. -/
theorem Reader.at_ofBytes (ws : List String) (file : String) :
    (Reader.ofBytes (Utf8.encode (spaced ws)) file).At ws where
  whole := by rw [edge_ofBytes, Cursor.ofBytes_encode]
  text := by
    rw [edge_ofBytes, Cursor.ofBytes_encode]
    rfl
  rounds := by
    rw [edge_ofBytes, rounds_ofBytes]
    exact Nat.lt_succ_self _
  queue := pending_ofBytes _ file

namespace Reading

variable {α : Type} {x : Reading α} {Q : α → List String → Prop}

/-- A reading that succeeds on the words of a text succeeds on the text. -/
theorem Yields.exists_ok (h : Yields x ws Q) (file : String) :
    ∃ a ws' r, x (Reader.ofBytes (Utf8.encode (spaced ws)) file) = .ok a r ∧ Q a ws' := by
  have hs := h _ (Reader.at_ofBytes ws file)
  cases hx : x (Reader.ofBytes (Utf8.encode (spaced ws)) file) with
  | ok a r =>
    obtain ⟨ws', -, ha⟩ := hs.ok hx
    exact ⟨a, ws', r, rfl, ha⟩
  | error e r => exact (hs.error hx).elim

theorem Yields.exists_outcome (h : Yields x ws Q) (file : String) :
    ∃ a ws', (x.outcome (Reader.ofBytes (Utf8.encode (spaced ws)) file)).1 = .ok a ∧ Q a ws' := by
  obtain ⟨a, ws', r, hx, ha⟩ := h.exists_ok file
  exact ⟨a, ws', by rw [outcome, hx], ha⟩

end Reading

/-- The text of a well-formed file without comments is read back, up to places, in whatever style it
is written. -/
theorem parse_render (opts : Grammar.Options) (σ : Style) (file : String) {f : File}
    (hf : f.isWellFormed = true) (hc : f.comments = []) :
    ∃ g, parse opts (Utf8.encode (f.render σ).toList) file = .ok g ∧ g.erase = f.erase := by
  obtain ⟨g, _, hg, herase⟩ := (Grammar.file_yields opts hf hc).exists_outcome file
  exact ⟨g, hg, herase⟩

/-- A file with every kind of declaration, in which many names are words of the grammar. -/
def wordyFile : File where
  version := some { item := {} }
  body := [
    .statement (.package { name := "package.syntax" }) {},
    .statement (.importing { location := "'a.proto'", visibility := .toImporters }) {},
    .statement (.option { name := "(option.max).to", constant := "-0x1F" }) {},
    .block (.message "message") [
      .statement (.field {
        type := ".stream.rpc", name := "repeated", number := "1", isRepeated := true,
        settings := [{ name := "packed", constant := "true" }, { name := "x", constant := "a.b" }] }) {},
      .statement (.field { type := "rpc.map", name := "map", number := "2" }) {},
      .statement (.mapField { keyType := "string", type := "int32", name := "inf", number := "3" }) {},
      .statement (.reserved { ranges := [{ first := "4" }, { first := "5", last := "max" }] }) {},
      .statement (.reserved { names := ["\"nan\"", "''"] }) {},
      .block (.oneof "oneof") [
        .statement (.field { type := "bool", name := "option", number := "010" }) {}] none {},
      .block (.enum "enum") [
        .statement (.enumField { name := "message", number := "-1" }) {}] none {}] none {},
    .block (.extend ".message") [
      .statement (.field { type := "option", name := "reserved", number := "6" }) {}] none {},
    .block (.service "service") [
      .block (.rpc {
        name := "returns",
        request := { messageType := "stream", isStream := true },
        response := { messageType := "returns.stream" } }) [
          .statement (.option { name := "rpc", constant := "1.5e3" }) {}] none {},
      .block (.rpc {
        name := "weak", request := { messageType := ".a" }, response := { messageType := "b" } })
          [] none {}] none {}]

example : (wordyFile.words {}).take 14 = ["syntax", "=", "\"proto3\"", ";", "package",
    "package.syntax", ";", "import", "public", "'a.proto'", ";", "option", "(option.max).to", "="] := by
  decide +kernel

theorem parse_render_wordy : wordyFile.isWellFormed = true ∧ wordyFile.comments = [] ∧
    ∃ g, parse {} (Utf8.encode (wordyFile.render { loose := true }).toList) "m.proto" = .ok g ∧
      g.erase = wordyFile.erase := by
  have hf : wordyFile.isWellFormed = true := by decide +kernel
  have hc : wordyFile.comments = [] := by decide +kernel
  exact ⟨hf, hc, parse_render {} { loose := true } "m.proto" hf hc⟩

end ProtoIdl
