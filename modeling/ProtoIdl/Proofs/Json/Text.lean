import Mathlib
import ProtoIdl.Json.Basic
/-!
# The text of a JSON value

No two values have the same text. A text is read from its start: its first character tells the kind
of the value (`shape_head`), and what is written for a part tells the part and where it ends, whatever
stands behind it. For a character in a string that is `escapeChar_cancel`, for a value `renderAt_cancel`.
Main statements: `Json.render_injective` and `Json.isAscii_render`.
-/
namespace ProtoIdl

namespace Text

theorem hexDigit_inj {m n : Nat} (hm : m < 16) (hn : n < 16) (h : hexDigit m = hexDigit n) :
    m = n := by
  have hall : ∀ m n : Fin 16, hexDigit m = hexDigit n → m = n := by decide
  exact Fin.mk.inj (hall ⟨m, hm⟩ ⟨n, hn⟩ h)

theorem hex_inj {width m n : Nat} (hm : m < 16 ^ width) (hn : n < 16 ^ width)
    (h : hex width m = hex width n) : m = n := by
  induction width generalizing m n with
  | zero => omega
  | succ width ih =>
    rw [Nat.pow_succ] at hm hn
    obtain ⟨hinit, hlast⟩ := List.append_inj' h rfl
    have hdiv : m / 16 = n / 16 := ih (by omega) (by omega) hinit
    have hmod : m % 16 = n % 16 :=
      hexDigit_inj (Nat.mod_lt _ (by decide)) (Nat.mod_lt _ (by decide)) (List.head_eq_of_cons_eq hlast)
    omega

end Text

namespace Json

/-! ## Strings -/

theorem escapeUnit_cancel {m n : Nat} {xs ys : List Char} (hm : m < 0x10000) (hn : n < 0x10000)
    (h : escapeUnit m ++ xs = escapeUnit n ++ ys) : m = n ∧ xs = ys := by
  have hlength : (escapeUnit m).length = (escapeUnit n).length := by simp [escapeUnit]
  obtain ⟨hunit, hrest⟩ := List.append_inj h hlength
  simp only [escapeUnit, List.cons.injEq, true_and] at hunit
  exact ⟨Text.hex_inj hm hn hunit, hrest⟩

/-- The letters behind a backslash, with what they stand for. -/
def shorts : List (Char × Char) :=
  [('"', '"'), ('\\', '\\'), ('n', '\n'), ('r', '\r'), ('t', '\t'), ('b', '\x08'), ('f', '\x0c')]

/-- A letter behind a backslash starts no unit and tells what it stands for. -/
theorem shorts_inj : ∀ p ∈ shorts, p.1 ≠ 'u' ∧ ∀ q ∈ shorts, p.1 = q.1 → p.2 = q.2 := by decide

/-- The first unit of a character. -/
def lead (c : Char) : Nat :=
  if c.toNat < 0x10000 then c.toNat else 0xD800 + (c.toNat - 0x10000) / 0x400

/-- The second unit of a character as it is written, if it has one. -/
def trail (c : Char) : List Char :=
  if c.toNat < 0x10000 then [] else escapeUnit (0xDC00 + (c.toNat - 0x10000) % 0x400)

/-- How a character is written: as itself, behind a backslash, or in units. -/
theorem escapeChar_cases (c : Char) : (escapeChar c = [c] ∧ c ≠ '"' ∧ c ≠ '\\') ∨
    (∃ x, escapeChar c = ['\\', x] ∧ (x, c) ∈ shorts) ∨
    escapeChar c = escapeUnit (lead c) ++ trail c := by
  by_cases h₁ : c = '"'
  · exact .inr (.inl ⟨'"', by rw [h₁]; rfl, by rw [h₁]; decide⟩)
  by_cases h₂ : c = '\\'
  · exact .inr (.inl ⟨'\\', by rw [h₂]; rfl, by rw [h₂]; decide⟩)
  by_cases h₃ : c = '\n'
  · exact .inr (.inl ⟨'n', by rw [h₃]; rfl, by rw [h₃]; decide⟩)
  by_cases h₄ : c = '\r'
  · exact .inr (.inl ⟨'r', by rw [h₄]; rfl, by rw [h₄]; decide⟩)
  by_cases h₅ : c = '\t'
  · exact .inr (.inl ⟨'t', by rw [h₅]; rfl, by rw [h₅]; decide⟩)
  by_cases h₆ : c.toNat = 0x08
  · obtain rfl : c = '\x08' := Char.toNat_inj.1 h₆
    exact .inr (.inl ⟨'b', rfl, by decide⟩)
  by_cases h₇ : c.toNat = 0x0C
  · obtain rfl : c = '\x0c' := Char.toNat_inj.1 h₇
    exact .inr (.inl ⟨'f', rfl, by decide⟩)
  rw [escapeChar, if_neg h₁, if_neg h₂, if_neg h₃, if_neg h₄, if_neg h₅, if_neg h₆, if_neg h₇]
  by_cases hplain : 0x20 ≤ c.toNat ∧ c.toNat < 0x7F
  · exact .inl ⟨if_pos hplain, h₁, h₂⟩
  · right; right
    rw [if_neg hplain, lead, trail]
    by_cases hunit : c.toNat < 0x10000
    · rw [if_pos hunit, if_pos hunit, if_pos hunit, List.append_nil]
    · rw [if_neg hunit, if_neg hunit, if_neg hunit]

/-- The code point of a character is no half of a pair. -/
theorem toNat_bounds (c : Char) : c.toNat < 0xD800 ∨ 0xDFFF < c.toNat ∧ c.toNat < 0x110000 := c.valid

theorem lead_lt (c : Char) : lead c < 0x10000 := by
  have hc := toNat_bounds c
  unfold lead
  split <;> omega

/-- The units of a character tell it. -/
theorem units_cancel {c d : Char} {xs ys : List Char} (hlead : lead c = lead d)
    (h : trail c ++ xs = trail d ++ ys) : c = d ∧ xs = ys := by
  have hc := toNat_bounds c
  have hd := toNat_bounds d
  unfold lead trail at *
  by_cases hc' : c.toNat < 0x10000 <;> by_cases hd' : d.toNat < 0x10000
  · rw [if_pos hc', if_pos hd'] at hlead h
    exact ⟨Char.toNat_inj.1 hlead, h⟩
  · rw [if_pos hc', if_neg hd'] at hlead
    omega
  · rw [if_neg hc', if_pos hd'] at hlead
    omega
  · rw [if_neg hc', if_neg hd'] at hlead h
    obtain ⟨htrail, hrest⟩ := escapeUnit_cancel (by omega) (by omega) h
    exact ⟨Char.toNat_inj.1 (by omega), hrest⟩

/-- What is written for a character tells it. -/
theorem escapeChar_cancel {c d : Char} {xs ys : List Char}
    (h : escapeChar c ++ xs = escapeChar d ++ ys) : c = d ∧ xs = ys := by
  rcases escapeChar_cases c with ⟨hc, -, hc'⟩ | ⟨x, hc, hx⟩ | hc <;>
    rcases escapeChar_cases d with ⟨hd, -, hd'⟩ | ⟨y, hd, hy⟩ | hd <;> rw [hc, hd] at h
  · exact List.cons_eq_cons.1 h
  · exact absurd (List.head_eq_of_cons_eq h) hc'
  · exact absurd (List.head_eq_of_cons_eq h) hc'
  · exact absurd (List.head_eq_of_cons_eq h).symm hd'
  · obtain ⟨hxy, hrest⟩ := List.cons_eq_cons.1 (List.tail_eq_of_cons_eq h)
    exact ⟨(shorts_inj _ hx).2 _ hy hxy, hrest⟩
  · exact absurd (List.head_eq_of_cons_eq (List.tail_eq_of_cons_eq h)) (shorts_inj _ hx).1
  · exact absurd (List.head_eq_of_cons_eq h).symm hd'
  · exact absurd (List.head_eq_of_cons_eq (List.tail_eq_of_cons_eq h)).symm (shorts_inj _ hy).1
  · rw [List.append_assoc, List.append_assoc] at h
    obtain ⟨hlead, htrail⟩ := escapeUnit_cancel (lead_lt c) (lead_lt d) h
    exact units_cancel hlead htrail

/-- A quote inside a string is escaped. -/
theorem escapeChar_ne_quote (c : Char) (xs ys : List Char) : escapeChar c ++ xs ≠ '"' :: ys := by
  intro h
  rcases escapeChar_cases c with ⟨hc, hne, -⟩ | ⟨x, hc, -⟩ | hc <;> rw [hc] at h
  · exact hne (List.head_eq_of_cons_eq h)
  · exact absurd (List.head_eq_of_cons_eq h) (by decide)
  · exact absurd (List.head_eq_of_cons_eq h) (by decide)

theorem escaped_cancel {cs ds xs ys : List Char}
    (h : cs.flatMap escapeChar ++ '"' :: xs = ds.flatMap escapeChar ++ '"' :: ys) :
    cs = ds ∧ xs = ys := by
  induction cs generalizing ds with
  | nil =>
    cases ds with
    | nil => exact ⟨rfl, List.tail_eq_of_cons_eq h⟩
    | cons d ds =>
      rw [List.flatMap_cons, List.append_assoc] at h
      exact absurd h.symm (escapeChar_ne_quote d _ _)
  | cons c cs ih =>
    rw [List.flatMap_cons, List.append_assoc] at h
    cases ds with
    | nil => exact absurd h (escapeChar_ne_quote c _ _)
    | cons d ds =>
      rw [List.flatMap_cons, List.append_assoc] at h
      obtain ⟨rfl, htail⟩ := escapeChar_cancel h
      obtain ⟨rfl, hrest⟩ := ih htail
      exact ⟨rfl, hrest⟩

theorem renderString_cancel {s t : String} {xs ys : List Char}
    (h : renderString s ++ xs = renderString t ++ ys) : s = t ∧ xs = ys := by
  simp only [renderString, List.cons_append, List.append_assoc, List.nil_append, List.cons.injEq,
    true_and] at h
  obtain ⟨hchars, hrest⟩ := escaped_cancel h
  exact ⟨String.toList_inj.1 hchars, hrest⟩

/-! ## Numbers -/

/-- A character of a number. -/
def isNumeric (c : Char) : Bool := c.isDigit || c == '-'

/-- No number goes on here. -/
def Stops (rest : List Char) : Prop := ∀ c ∈ rest.head?, isNumeric c = false

theorem isNumeric_toString (i : Int) : ∀ c ∈ (toString i).toList, isNumeric c = true := by
  have hdigits (n : Nat) : ∀ c ∈ n.repr.toList, isNumeric c = true := by
    intro c hc
    rw [Nat.toList_repr] at hc
    rw [isNumeric, Nat.isDigit_of_mem_toDigits (by decide) (by decide) hc, Bool.true_or]
  change ∀ c ∈ i.repr.toList, isNumeric c = true
  rw [Int.repr_eq_if]
  split
  · exact hdigits _
  · intro c hc
    rw [String.toList_append, List.mem_append] at hc
    rcases hc with hc | hc
    · rw [List.mem_singleton.1 hc]
      rfl
    · exact hdigits _ c hc

theorem toString_ne_nil (i : Int) : (toString i).toList ≠ [] := by
  change i.repr.toList ≠ []
  rw [Int.repr_eq_if]
  split
  · rw [Nat.toList_repr]
    exact Nat.toDigits_ne_nil
  · rw [String.toList_append]
    exact List.append_ne_nil_of_left_ne_nil (List.cons_ne_nil _ _) _

theorem takeWhile_numeric {cs rest : List Char} (hcs : ∀ c ∈ cs, isNumeric c = true)
    (hrest : Stops rest) : (cs ++ rest).takeWhile isNumeric = cs := by
  rw [List.takeWhile_append_of_pos hcs]
  cases rest with
  | nil => rw [List.takeWhile_nil, List.append_nil]
  | cons c rest =>
    have hc : isNumeric c = false := hrest c rfl
    rw [List.takeWhile_cons_of_neg (by rw [hc]; decide), List.append_nil]

theorem int_cancel {i j : Int} {xs ys : List Char} (hxs : Stops xs) (hys : Stops ys)
    (h : (toString i).toList ++ xs = (toString j).toList ++ ys) : i = j ∧ xs = ys := by
  have hchars : (toString i).toList = (toString j).toList := by
    rw [← takeWhile_numeric (isNumeric_toString i) hxs, h,
      takeWhile_numeric (isNumeric_toString j) hys]
  rw [hchars] at h
  exact ⟨Int.repr_inj.1 (String.toList_inj.1 hchars), List.append_cancel_left h⟩

/-! ## Values -/

/-- The kind of value that starts with a character. -/
def shapeOf : Char → Nat
  | 'n' => 0
  | 't' | 'f' => 1
  | '"' => 2
  | '[' => 3
  | '\x7b' => 4
  | _ => 5

/-- The kind of a value. -/
def shape : Json → Nat
  | .null => 0
  | .bool _ => 1
  | .string _ => 2
  | .array _ => 3
  | .object _ => 4
  | .int _ => 5

theorem shapeOf_numeric {c : Char} (h : isNumeric c = true) : shapeOf c = 5 := by
  unfold shapeOf
  split <;> first | rfl | exact absurd h (by decide)

/-- The first character of a value tells its kind. -/
theorem shape_head (level : Nat) (j : Json) :
    ∃ c cs, renderAt level j = c :: cs ∧ shapeOf c = j.shape := by
  cases j with
  | null => exact ⟨_, _, rfl, rfl⟩
  | bool b => cases b <;> exact ⟨_, _, rfl, rfl⟩
  | int i =>
    obtain ⟨c, cs, hcs⟩ := List.exists_cons_of_ne_nil (toString_ne_nil i)
    exact ⟨c, cs, hcs, shapeOf_numeric (isNumeric_toString i c (hcs ▸ List.mem_cons_self))⟩
  | string s => exact ⟨_, _, rfl, rfl⟩
  | array items => cases items <;> exact ⟨_, _, rfl, rfl⟩
  | object members => rcases members with _ | ⟨⟨name, value⟩, members⟩ <;> exact ⟨_, _, rfl, rfl⟩

theorem shape_eq {level : Nat} {j k : Json} {xs ys : List Char}
    (h : renderAt level j ++ xs = renderAt level k ++ ys) : j.shape = k.shape := by
  obtain ⟨c, cs, hc, hshape⟩ := shape_head level j
  obtain ⟨d, ds, hd, hshape'⟩ := shape_head level k
  rw [hc, hd] at h
  rw [← hshape, ← hshape', List.head_eq_of_cons_eq h]

theorem stops_nil : Stops [] := fun _ hc => absurd hc (Option.not_mem_none _)

/-- Behind an item or a member no number goes on. -/
theorem stops_newline (xs : List Char) : Stops ('\n' :: xs) := by
  rintro c hc
  obtain rfl : c = '\n' := (Option.some.inj hc).symm
  rfl

theorem stops_items (level : Nat) (items : List Json) (xs : List Char) :
    Stops (renderItems level items ++ '\n' :: xs) := by
  cases items with
  | nil => exact stops_newline xs
  | cons item items =>
    rintro c hc
    obtain rfl : c = ',' := (Option.some.inj hc).symm
    rfl

theorem stops_members (level : Nat) (members : List (String × Json)) (xs : List Char) :
    Stops (renderMembers level members ++ '\n' :: xs) := by
  rcases members with _ | ⟨⟨name, value⟩, members⟩
  · exact stops_newline xs
  · rintro c hc
    obtain rfl : c = ',' := (Option.some.inj hc).symm
    rfl

/-! What stands around the parts of a value. -/

theorem renderAt_array (level : Nat) (item : Json) (items : List Json) (xs : List Char) :
    renderAt level (.array (item :: items)) ++ xs =
      ('[' :: newline (level + 1)) ++ (renderAt (level + 1) item ++
        (renderItems (level + 1) items ++ '\n' :: (List.replicate (2 * level) ' ' ++ ']' :: xs))) := by
  simp [renderAt, newline]

theorem renderAt_object (level : Nat) (name : String) (value : Json)
    (members : List (String × Json)) (xs : List Char) :
    renderAt level (.object ((name, value) :: members)) ++ xs =
      ('\x7b' :: newline (level + 1)) ++ (renderString name ++ (colon ++
        (renderAt (level + 1) value ++ (renderMembers (level + 1) members ++
          '\n' :: (List.replicate (2 * level) ' ' ++ '\x7d' :: xs))))) := by
  simp [renderAt, newline]

theorem renderItems_cons (level : Nat) (item : Json) (items : List Json) (xs : List Char) :
    renderItems level (item :: items) ++ xs =
      (',' :: newline level) ++ (renderAt level item ++ (renderItems level items ++ xs)) := by
  simp [renderItems]

theorem renderMembers_cons (level : Nat) (name : String) (value : Json)
    (members : List (String × Json)) (xs : List Char) :
    renderMembers level ((name, value) :: members) ++ xs =
      (',' :: newline level) ++ (renderString name ++ (colon ++
        (renderAt level value ++ (renderMembers level members ++ xs)))) := by
  simp [renderMembers]

mutual
/-- What is written for a value tells it, and where it ends. -/
theorem renderAt_cancel : (j k : Json) → {level : Nat} → {xs ys : List Char} → Stops xs → Stops ys →
    renderAt level j ++ xs = renderAt level k ++ ys → j = k ∧ xs = ys
  | .null, k, level, xs, ys, hxs, hys, h => by
    have hshape := shape_eq h
    cases k with
    | null => exact ⟨rfl, List.append_cancel_left h⟩
    | _ => cases hshape
  | .bool b, k, level, xs, ys, hxs, hys, h => by
    have hshape := shape_eq h
    cases k with
    | bool b' =>
      cases b <;> cases b'
      · exact ⟨rfl, List.append_cancel_left h⟩
      · exact absurd (List.head_eq_of_cons_eq h) (by decide)
      · exact absurd (List.head_eq_of_cons_eq h) (by decide)
      · exact ⟨rfl, List.append_cancel_left h⟩
    | _ => cases hshape
  | .int i, k, level, xs, ys, hxs, hys, h => by
    have hshape := shape_eq h
    cases k with
    | int i' =>
      obtain ⟨rfl, hrest⟩ := int_cancel hxs hys h
      exact ⟨rfl, hrest⟩
    | _ => cases hshape
  | .string s, k, level, xs, ys, hxs, hys, h => by
    have hshape := shape_eq h
    cases k with
    | string s' =>
      obtain ⟨rfl, hrest⟩ := renderString_cancel h
      exact ⟨rfl, hrest⟩
    | _ => cases hshape
  | .array items, k, level, xs, ys, hxs, hys, h => by
    have hshape := shape_eq h
    cases k with
    | array items' =>
      cases items with
      | nil =>
        cases items' with
        | nil => exact ⟨rfl, List.append_cancel_left h⟩
        | cons item' items' =>
          exact absurd (List.head_eq_of_cons_eq (List.tail_eq_of_cons_eq h)) (by decide)
      | cons item items =>
        cases items' with
        | nil => exact absurd (List.head_eq_of_cons_eq (List.tail_eq_of_cons_eq h)) (by decide)
        | cons item' items' =>
          rw [renderAt_array, renderAt_array] at h
          obtain ⟨rfl, hitems⟩ := renderAt_cancel item item' (stops_items _ _ _) (stops_items _ _ _)
            (List.append_cancel_left h)
          obtain ⟨rfl, hrest⟩ := renderItems_cancel items items' hitems
          exact ⟨rfl, List.tail_eq_of_cons_eq (List.append_cancel_left hrest)⟩
    | _ => cases hshape
  | .object members, k, level, xs, ys, hxs, hys, h => by
    have hshape := shape_eq h
    cases k with
    | object members' =>
      cases members with
      | nil =>
        cases members' with
        | nil => exact ⟨rfl, List.append_cancel_left h⟩
        | cons member' members' =>
          exact absurd (List.head_eq_of_cons_eq (List.tail_eq_of_cons_eq h)) (by decide)
      | cons member members =>
        obtain ⟨name, value⟩ := member
        cases members' with
        | nil => exact absurd (List.head_eq_of_cons_eq (List.tail_eq_of_cons_eq h)) (by decide)
        | cons member' members' =>
          obtain ⟨name', value'⟩ := member'
          rw [renderAt_object, renderAt_object] at h
          obtain ⟨rfl, hvalue⟩ := renderString_cancel (List.append_cancel_left h)
          obtain ⟨rfl, hmembers⟩ := renderAt_cancel value value' (stops_members _ _ _)
            (stops_members _ _ _) (List.append_cancel_left hvalue)
          obtain ⟨rfl, hrest⟩ := renderMembers_cancel members members' hmembers
          exact ⟨rfl, List.tail_eq_of_cons_eq (List.append_cancel_left hrest)⟩
    | _ => cases hshape

theorem renderItems_cancel : (js ks : List Json) → {level : Nat} → {xs ys : List Char} →
    renderItems level js ++ '\n' :: xs = renderItems level ks ++ '\n' :: ys → js = ks ∧ xs = ys
  | [], [], level, xs, ys, h => ⟨rfl, List.tail_eq_of_cons_eq h⟩
  | [], k :: ks, level, xs, ys, h => absurd (List.head_eq_of_cons_eq h) (by decide)
  | j :: js, [], level, xs, ys, h => absurd (List.head_eq_of_cons_eq h) (by decide)
  | j :: js, k :: ks, level, xs, ys, h => by
    rw [renderItems_cons, renderItems_cons] at h
    obtain ⟨rfl, hitems⟩ := renderAt_cancel j k (stops_items _ _ _) (stops_items _ _ _)
      (List.append_cancel_left h)
    obtain ⟨rfl, hrest⟩ := renderItems_cancel js ks hitems
    exact ⟨rfl, hrest⟩

theorem renderMembers_cancel : (js ks : List (String × Json)) → {level : Nat} →
    {xs ys : List Char} →
    renderMembers level js ++ '\n' :: xs = renderMembers level ks ++ '\n' :: ys → js = ks ∧ xs = ys
  | [], [], level, xs, ys, h => ⟨rfl, List.tail_eq_of_cons_eq h⟩
  | [], (_, _) :: _, level, xs, ys, h => absurd (List.head_eq_of_cons_eq h) (by decide)
  | (_, _) :: _, [], level, xs, ys, h => absurd (List.head_eq_of_cons_eq h) (by decide)
  | (name, j) :: js, (name', k) :: ks, level, xs, ys, h => by
    rw [renderMembers_cons, renderMembers_cons] at h
    obtain ⟨rfl, hvalue⟩ := renderString_cancel (List.append_cancel_left h)
    obtain ⟨rfl, hmembers⟩ := renderAt_cancel j k (stops_members _ _ _) (stops_members _ _ _)
      (List.append_cancel_left hvalue)
    obtain ⟨rfl, hrest⟩ := renderMembers_cancel js ks hmembers
    exact ⟨rfl, hrest⟩
end

/-- No two values have the same text. -/
theorem render_injective : Function.Injective render := by
  intro j k h
  have hchars : renderAt 0 j ++ [] = renderAt 0 k ++ [] := by
    rw [List.append_nil, List.append_nil]
    exact String.ofList_injective h
  exact (renderAt_cancel j k stops_nil stops_nil hchars).1

/-! ## Characters -/

/-- Every character is one of the 128 ASCII characters. -/
def IsAscii (cs : List Char) : Prop := ∀ c ∈ cs, Text.isAscii c = true

theorem isAscii_nil : IsAscii [] := nofun

theorem isAscii_cons {c : Char} {cs : List Char} :
    IsAscii (c :: cs) ↔ Text.isAscii c = true ∧ IsAscii cs :=
  List.forall_mem_cons

theorem isAscii_append {xs ys : List Char} : IsAscii (xs ++ ys) ↔ IsAscii xs ∧ IsAscii ys :=
  List.forall_mem_append

theorem isAscii_hex (width n : Nat) : IsAscii (Text.hex width n) := by
  have hdigit : ∀ d : Fin 16, Text.isAscii (Text.hexDigit d) = true := by decide
  induction width generalizing n with
  | zero => exact isAscii_nil
  | succ width ih =>
    rw [Text.hex, isAscii_append, isAscii_cons]
    exact ⟨ih _, hdigit ⟨n % 16, Nat.mod_lt n (by decide)⟩, isAscii_nil⟩

theorem isAscii_escapeUnit (unit : Nat) : IsAscii (escapeUnit unit) :=
  isAscii_cons.2 ⟨rfl, isAscii_cons.2 ⟨rfl, isAscii_hex 4 unit⟩⟩

/-- A character that is none of the 128 is written in units. -/
theorem isAscii_escapeChar (c : Char) : IsAscii (escapeChar c) := by
  have hpair (x : Char) (hx : Text.isAscii x = true) : IsAscii ['\\', x] :=
    isAscii_cons.2 ⟨rfl, isAscii_cons.2 ⟨hx, isAscii_nil⟩⟩
  unfold escapeChar
  iterate 7
    split
    · exact hpair _ rfl
  split
  · next h => exact isAscii_cons.2 ⟨decide_eq_true (by omega), isAscii_nil⟩
  · split
    · exact isAscii_escapeUnit _
    · exact isAscii_append.2 ⟨isAscii_escapeUnit _, isAscii_escapeUnit _⟩

theorem isAscii_renderString (s : String) : IsAscii (renderString s) := by
  have hchars : IsAscii (s.toList.flatMap escapeChar) := by
    intro x hx
    obtain ⟨c, -, hc⟩ := List.mem_flatMap.1 hx
    exact isAscii_escapeChar c x hc
  exact isAscii_append.2 ⟨isAscii_cons.2 ⟨rfl, hchars⟩, isAscii_cons.2 ⟨rfl, isAscii_nil⟩⟩

theorem isAscii_toString (i : Int) : IsAscii (toString i).toList := by
  intro c hc
  have hnumeric := isNumeric_toString i c hc
  rw [isNumeric, Bool.or_eq_true, beq_iff_eq] at hnumeric
  rcases hnumeric with h | rfl
  · have hle : c.toNat ≤ '9'.toNat := (Char.isDigit_iff_toNat.1 h).2
    exact decide_eq_true (Nat.lt_of_le_of_lt hle (by decide))
  · rfl

theorem isAscii_newline (level : Nat) : IsAscii (newline level) := by
  refine isAscii_cons.2 ⟨rfl, fun c hc => ?_⟩
  rw [List.eq_of_mem_replicate hc]
  rfl

instance (cs : List Char) : Decidable (IsAscii cs) :=
  List.decidableBAll (fun c => Text.isAscii c = true) cs

mutual
/-- The text of a value is ASCII, whatever its strings hold. -/
theorem isAscii_renderAt : (j : Json) → (level : Nat) → IsAscii (renderAt level j)
  | .null, level => (by decide : IsAscii "null".toList)
  | .bool true, level => (by decide : IsAscii "true".toList)
  | .bool false, level => (by decide : IsAscii "false".toList)
  | .int i, level => isAscii_toString i
  | .string s, level => isAscii_renderString s
  | .array [], level => (by decide : IsAscii ['[', ']'])
  | .array (item :: items), level => by
    have hitem := isAscii_renderAt item (level + 1)
    have hitems := isAscii_renderItems items (level + 1)
    simp [renderAt, isAscii_append, isAscii_cons, isAscii_nil, isAscii_newline, Text.isAscii, hitem,
      hitems]
  | .object [], level => (by decide : IsAscii ['\x7b', '\x7d'])
  | .object ((name, value) :: members), level => by
    have hvalue := isAscii_renderAt value (level + 1)
    have hmembers := isAscii_renderMembers members (level + 1)
    simp [renderAt, isAscii_append, isAscii_cons, isAscii_nil, isAscii_newline,
      isAscii_renderString, colon, Text.isAscii, hvalue, hmembers]

theorem isAscii_renderItems : (items : List Json) → (level : Nat) → IsAscii (renderItems level items)
  | [], level => isAscii_nil
  | item :: items, level => by
    have hitem := isAscii_renderAt item level
    have hitems := isAscii_renderItems items level
    simp [renderItems, isAscii_append, isAscii_cons, isAscii_newline, Text.isAscii, hitem, hitems]

theorem isAscii_renderMembers : (members : List (String × Json)) → (level : Nat) →
    IsAscii (renderMembers level members)
  | [], level => isAscii_nil
  | (name, value) :: members, level => by
    have hvalue := isAscii_renderAt value level
    have hmembers := isAscii_renderMembers members level
    simp [renderMembers, isAscii_append, isAscii_cons, isAscii_newline, isAscii_renderString, colon,
      Text.isAscii, hvalue, hmembers]
end

/-- The text of a value holds no characters but ASCII ones. -/
theorem isAscii_render (j : Json) : IsAscii j.render.toList := by
  rw [render, String.toList_ofList]
  exact isAscii_renderAt j 0

end Json

end ProtoIdl
