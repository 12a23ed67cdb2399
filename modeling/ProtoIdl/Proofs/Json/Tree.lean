import ProtoIdl.Json.Tree
import ProtoIdl.Proofs.Json.Text
/-!
# What the JSON form of a declaration tells

The parts of a tree are told by their JSON forms (`ToJson.Faithful`). The form of a declaration does
not name its kind, but the names of its members do: no two kinds of statements have the same ones
(`Json.statement_inj`), and comments, statements and blocks end differently (`Json.noted_ne_blocked`,
`Json.comment_ne`).
-/
namespace ProtoIdl

/-- Types whose values are told by their JSON forms. -/
class ToJson.Faithful (α : Type) [ToJson α] : Prop where
  /-- No two values have the same form. -/
  injective : Function.Injective (json : α → Json)

section
variable {α : Type} [ToJson α] [ToJson.Faithful α]

@[simp]
theorem json_inj {a b : α} : json a = json b ↔ a = b := ToJson.Faithful.injective.eq_iff

instance : ToJson.Faithful String := ⟨fun _ _ h => Json.string.inj h⟩
instance : ToJson.Faithful Bool := ⟨fun _ _ h => Json.bool.inj h⟩
instance : ToJson.Faithful Int := ⟨fun _ _ h => Json.int.inj h⟩

instance : ToJson.Faithful (List α) :=
  ⟨fun _ _ h => ToJson.Faithful.injective.list_map (Json.array.inj h)⟩

/-- What is missing is written as `null`, and nothing else may be. -/
theorem faithful_option (hnull : ∀ a : α, json a ≠ .null) : ToJson.Faithful (Option α) where
  injective := by
    intro a b h
    cases a with
    | none =>
      cases b with
      | none => rfl
      | some b => exact absurd h.symm (hnull b)
    | some a =>
      cases b with
      | none => exact absurd h (hnull a)
      | some b => exact congrArg some (ToJson.Faithful.injective h)

end

/-! ## Parts of declarations -/

instance : ToJson.Faithful Position where
  injective := by
    rintro ⟨⟩ ⟨⟩ h
    simpa using Json.object.inj h

instance : ToJson.Faithful Extent where
  injective := by
    rintro ⟨⟩ ⟨⟩ h
    simpa using Json.object.inj h

instance : ToJson.Faithful Comment where
  injective := by
    rintro ⟨⟩ ⟨⟩ h
    simpa using Json.object.inj h

instance : ToJson.Faithful Setting where
  injective := by
    rintro ⟨⟩ ⟨⟩ h
    simpa using Json.object.inj h

instance : ToJson.Faithful EndpointField where
  injective := by
    rintro ⟨⟩ ⟨⟩ h
    simpa using Json.object.inj h

instance : ToJson.Faithful Binding where
  injective := by
    rintro ⟨⟩ ⟨⟩ h
    simpa using Json.object.inj h

instance : ToJson.Faithful Endpoint where
  injective := by
    rintro ⟨⟩ ⟨⟩ h
    simpa using Json.object.inj h

instance : ToJson.Faithful NumberRange where
  injective := by
    rintro ⟨⟩ ⟨⟩ h
    simpa using Json.object.inj h

instance : ToJson.Faithful RpcType where
  injective := by
    rintro ⟨⟩ ⟨⟩ h
    simpa using Json.object.inj h

instance : ToJson.Faithful (Option Comment) := faithful_option fun _ => Json.noConfusion
instance : ToJson.Faithful (Option Endpoint) := faithful_option fun _ => Json.noConfusion

theorem Visibility.word_injective : Function.Injective Visibility.word := by
  rintro (_ | _ | _) (_ | _ | _) h <;> first | rfl | exact absurd h (by decide)

namespace Json

/-! ## Statements -/

/-- The members of a statement tell it: no two kinds of statements start with the same name. -/
theorem statement_inj {s t : Statement} (h : statement s = statement t) : s = t := by
  rcases s with ⟨⟨⟩⟩ | ⟨⟨⟩⟩ | ⟨⟨⟩⟩ | ⟨⟨⟩⟩ | ⟨⟨⟩⟩ | ⟨⟨⟩⟩ | ⟨⟨⟩⟩ | ⟨⟨⟩⟩ <;>
    rcases t with ⟨⟨⟩⟩ | ⟨⟨⟩⟩ | ⟨⟨⟩⟩ | ⟨⟨⟩⟩ | ⟨⟨⟩⟩ | ⟨⟨⟩⟩ | ⟨⟨⟩⟩ | ⟨⟨⟩⟩ <;>
    simp_all [statement, version, importing, package, option, field, mapField, enumField, reserved,
      Visibility.word_injective.eq_iff]

theorem notes_inj {m n : Notes} (hleading : leading m = leading n) (hplace : place m = place n) :
    m = n := by
  cases m
  cases n
  simp_all [leading, place]

/-- The members of a statement are told from its notes. -/
theorem noted_inj {xs ys : List (String × Json)} {m n : Notes} (h : noted xs m = noted ys n) :
    xs = ys ∧ m = n := by
  obtain ⟨hinit, hplace⟩ := List.append_inj' (Json.object.inj h) rfl
  obtain ⟨hmembers, hleading⟩ := List.append_inj' hinit rfl
  exact ⟨hmembers, notes_inj hleading hplace⟩

/-! ## Blocks -/

theorem blocked_inj {xs ys : List (String × Json)} {curly curly' : Option Comment} {m n : Notes}
    (h : blocked xs curly m = blocked ys curly' n) : xs = ys ∧ curly = curly' ∧ m = n := by
  obtain ⟨hinit, hplace⟩ := List.append_inj' (Json.object.inj h) rfl
  obtain ⟨hinit, hcurly⟩ := List.append_inj' hinit rfl
  obtain ⟨hmembers, hleading⟩ := List.append_inj' hinit rfl
  simp only [List.cons.injEq, Prod.mk.injEq, json_inj, true_and, and_true] at hcurly
  exact ⟨hmembers, hcurly, notes_inj hleading hplace⟩

/-- A block has a member in front of its place that no statement has there. -/
theorem noted_ne_blocked (xs ys : List (String × Json)) (curly : Option Comment) (m n : Notes) :
    noted xs m ≠ blocked ys curly n := by
  intro h
  obtain ⟨hinit, -⟩ := List.append_inj' (Json.object.inj h) rfl
  have hlast := congrArg (fun l => l.getLast?.map Prod.fst) hinit
  simp [leading] at hlast

/-- A comment has two members, and a declaration has more. -/
theorem comment_ne (k : Comment) {xs : List (String × Json)} (hxs : 1 < xs.length) (n : Notes) :
    json k ≠ .object (xs ++ place n) := by
  intro h
  have hlength := congrArg List.length (Json.object.inj h)
  simp [place] at hlength
  omega

theorem comment_ne_noted (k : Comment) (xs : List (String × Json)) (n : Notes) :
    json k ≠ noted xs n := comment_ne k (by simp [leading]) n

theorem comment_ne_blocked (k : Comment) (xs : List (String × Json)) (curly : Option Comment)
    (n : Notes) : json k ≠ blocked xs curly n := comment_ne k (by simp [leading]) n

end Json

/-- A version is written like any other statement. -/
instance : ToJson.Faithful (Noted Version) where
  injective := by
    rintro ⟨⟨text⟩, m⟩ ⟨⟨text'⟩, n⟩ h
    obtain ⟨hversion, rfl⟩ := Json.noted_inj h
    simpa [Json.version] using hversion

instance : ToJson.Faithful (Option (Noted Version)) := faithful_option fun _ => Json.noConfusion

end ProtoIdl
