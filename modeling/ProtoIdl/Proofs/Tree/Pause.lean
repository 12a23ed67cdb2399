import ProtoIdl.Grammar.Remark
import ProtoIdl.Proofs.Tree.Clear
/-!
# Between declarations

A pause is a place between declarations: the start of the text, behind the opening curly of a block,
behind a declaration, or behind empty statements that follow one of these (`File.Pauses`). The
comments in front of the next token are saved if they are in the tree (`Cursor.Saves`). A semicolon
that comes next is an empty statement; the comments in front of it are claimed by nothing and are
left out of what is stated.
-/
namespace ProtoIdl

namespace Cursor

/-- From the first cursor to the second one only empty statements are read. -/
inductive Skips : Cursor → Cursor → Prop
  | refl (b : Cursor) : Skips b b
  | semicolon {a b d e : Cursor} {t : Token} {ts : List Token} (ht : a.Finds .plain t ts d b)
      (hk : t.kind = .delimiter .semicolon) (h : Skips b e) : Skips a e

/-- The comments in front of the next token are among `ks`, unless the token is a semicolon. -/
def Saves (ks : List Comment) (b : Cursor) : Prop :=
  ∀ t ts d e, b.Finds .plain t ts d e → t.kind ≠ .delimiter .semicolon →
    ∀ k ∈ ts, Comment.ofToken k ∈ ks

/-- So it is also behind empty statements. -/
def SavesAll (ks : List Comment) (a : Cursor) : Prop := ∀ b, a.Skips b → b.Saves ks

/-- So it is up to `b`, from where on nothing is said. -/
def SavesUpTo (ks : List Comment) (b : Cursor) (a : Cursor) : Prop :=
  ∀ b', a.Skips b' → b'.Saves ks ∨ b.Skips b'

variable {a b d e : Cursor} {t : Token} {ts : List Token} {ks js : List Comment}

theorem Saves.mono (hk : ks ⊆ js) (h : b.Saves ks) : b.Saves js :=
  fun t ts d e hf hne k hkt => hk (h t ts d e hf hne k hkt)

theorem SavesAll.mono (hk : ks ⊆ js) (h : a.SavesAll ks) : a.SavesAll js :=
  fun b hb => (h b hb).mono hk

theorem SavesAll.upTo (h : a.SavesAll ks) : SavesUpTo ks b a := fun b' hb => .inl (h b' hb)

theorem savesUpTo_self (ks : List Comment) (b : Cursor) : SavesUpTo ks b b := fun _ h => .inr h

/-- The comments in front of a token that is no semicolon are all that a pause has to save. -/
theorem savesAll_of_finds (ht : b.Finds .plain t ts d e) (hk : t.kind ≠ .delimiter .semicolon)
    (hts : ∀ k ∈ ts, Comment.ofToken k ∈ ks) : b.SavesAll ks := by
  intro b' hb
  cases hb with
  | refl =>
    intro t' ts' d' e' hf hne
    obtain ⟨-, rfl, -⟩ := ht.unique hf
    exact hts
  | semicolon ht' hk' =>
    obtain ⟨rfl, -⟩ := ht.unique ht'
    exact absurd hk' hk

/-- What is saved from `b` on is saved from everywhere. -/
theorem SavesUpTo.all (h : SavesUpTo ks b a) (hb : b.SavesAll js) (hk : ks ⊆ js) :
    a.SavesAll js := by
  intro b' hb'
  rcases h b' hb' with h | h
  · exact h.mono hk
  · exact hb b' h

/-- Nothing has to be saved in front of a semicolon. -/
theorem SavesUpTo.semicolon (h : SavesUpTo ks b a) (ht : b.Finds .plain t ts d e)
    (hk : t.kind = .delimiter .semicolon) : SavesUpTo ks e a := by
  intro b' hb'
  rcases h b' hb' with h | h
  · exact .inl h
  · cases h with
    | refl =>
      refine .inl fun t' ts' d' e' hf hne => ?_
      obtain ⟨rfl, -⟩ := ht.unique hf
      exact absurd hk hne
    | semicolon ht' hk' h =>
      obtain ⟨-, -, -, rfl⟩ := ht.unique ht'
      exact .inr h

end Cursor

/-! ## The pauses of a file -/

/-- The place right behind the character at `p`. -/
def Cursor.Behind (c : Cursor) (p : Position) (b : Cursor) : Prop :=
  ∃ a, c.Reaches a ∧ a.position = p ∧ b = a.advance 1

theorem Cursor.Behind.unique {c b b' : Cursor} {p : Position} (h : c.Behind p b)
    (h' : c.Behind p b') : b = b' := by
  obtain ⟨a, ha, hp, rfl⟩ := h
  obtain ⟨a', ha', hp', rfl⟩ := h'
  rw [ha.eq_of_offset ha' (by rw [hp, hp'])]

/-- The body of the block starts at the cursor, behind the curly that ends the head. -/
def Element.Opens (c b : Cursor) : Element → Prop
  | .block _ _ _ notes => ∃ d p, c.Reaches d ∧ d.position = notes.extent.start ∧
    d.HeadEnds .leftBrace p ∧ c.Behind p b
  | .comment _ | .statement _ _ | .fragment _ | .file _ _ => False

/-- The declaration ends in front of the cursor. -/
def Element.Ends (c b : Cursor) (e : Element) : Prop :=
  e.notes?.isSome ∧ c.Behind e.extent.last b

/-- The cursor is between declarations of the file, whose text starts at `c`. -/
def File.Pauses (c : Cursor) (f : File) (b : Cursor) : Prop :=
  ∃ a, (a = c ∨ ∃ e, f.Has (.element e) ∧ (e.Opens c a ∨ e.Ends c a)) ∧ a.Skips b

/-- The property holds where the body of the node starts and where the node ends, if it is a block or
a statement. -/
def Node.Borders (c : Cursor) (P : Cursor → Prop) (n : Node) : Prop :=
  ∀ e, n = .element e → ∀ b, e.Opens c b ∨ e.Ends c b → P b

section
variable {c : Cursor} {P Q : Cursor → Prop}

theorem Node.Borders.mono (hpq : ∀ b, P b → Q b) {n : Node} (h : n.Borders c P) : n.Borders c Q :=
  fun e he b hb => hpq b (h e he b hb)

theorem Node.borders_part {n : Node} (hn : ∀ e, n ≠ .element e) : n.All (Node.Borders c P) := by
  have hself (n : Node) (hn : ∀ e, n ≠ .element e) : n.Borders c P :=
    fun e he => absurd he (hn e)
  cases n with
  | element e => exact absurd rfl (hn e)
  | rpcType t => exact .intro (hself _ hn) nofun
  | endpointField f => exact .intro (hself _ hn) nofun
  | binding b =>
    refine .intro (hself _ hn) fun m hm => ?_
    obtain ⟨f, -, rfl⟩ := List.mem_map.1 hm
    exact .intro (hself _ nofun) nofun

theorem Node.borders_comment (k : Comment) : Node.All (Node.Borders c P) (.element (.comment k)) := by
  refine .intro ?_ nofun
  rintro _ ⟨⟩ b (h | ⟨h, -⟩)
  · exact h.elim
  · cases h

theorem Statement.parts_ne_element {s : Statement} {m : Node} (hm : m ∈ s.parts) (e : Element) :
    m ≠ .element e := by
  unfold Statement.parts at hm
  split at hm
  · rintro rfl
    simp [Endpoint.parts] at hm
  · cases hm

theorem Head.parts_ne_element {h : Head} {m : Node} (hm : m ∈ h.parts) (e : Element) :
    m ≠ .element e := by
  unfold Head.parts at hm
  split at hm
  · rintro rfl
    simp at hm
  · cases hm

/-- The borders of a declaration are its own and those in its body. -/
theorem Element.borders_intro {e : Element} (hself : ∀ b, e.Opens c b ∨ e.Ends c b → P b)
    (hbody : ∀ d ∈ e.body, Node.All (Node.Borders c P) (.element d)) :
    Node.All (Node.Borders c P) (.element e) := by
  refine .intro ?_ fun m hm => ?_
  · rintro _ ⟨⟩
    exact hself
  · cases e with
    | comment k | fragment f | file v body => cases hm
    | statement s notes => exact Node.borders_part (Statement.parts_ne_element hm)
    | block head body curly notes =>
      rcases List.mem_append.1 hm with hm | hm
      · exact Node.borders_part (Head.parts_ne_element hm)
      · obtain ⟨d, hd, rfl⟩ := List.mem_map.1 hm
        exact hbody d hd

end

end ProtoIdl
