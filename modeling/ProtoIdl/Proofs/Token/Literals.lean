import ProtoIdl.Proofs.Token.Spelled
/-!
# What joined literals say

A literal denotes a list of codes, one for each plain character and one for each escape; an escape of
digits takes every digit that follows, up to a limit (`Spelling.value`). Literals are joined as they
are written, so an escape at the end of one may take the first character of the next: then a seam is
torn (`Spelling.Torn`), and less is said than by the literals one by one. If no seam is torn, all is
said. Main statement: `string_value`.
-/
namespace ProtoIdl

open Spelling
open Text (isOctalDigit isHexDigit)
open Scan (isBlank isQuote)

namespace Spelling

/-! ## Values -/

/-- The value of a digit. -/
def digitValue (c : Char) : Nat :=
  if 'a' ≤ c then c.toNat - 'a'.toNat + 10
  else if 'A' ≤ c then c.toNat - 'A'.toNat + 10
  else c.toNat - '0'.toNat

/-- The code of a simple escape. Quotes, the backslash and the question mark stand for themselves. -/
def simpleCode : Char → Nat
  | 'a' => 7
  | 'b' => 8
  | 'f' => 12
  | 'n' => 10
  | 'r' => 13
  | 't' => 9
  | 'v' => 11
  | c => c.toNat

/-- What the characters in front leave open. -/
inductive Pending
  /-- Nothing. -/
  | nothing
  /-- An escape that was begun by a backslash. -/
  | backslash
  /-- An escape of digits, octal or hexadecimal, which takes `more` of them at most; `code` is its
  code so far. -/
  | digits (octal : Bool) (more : Nat) (code : Nat)
deriving DecidableEq, Repr

namespace Pending

/-- Whether the escape takes the next character as a digit. -/
def takes : Pending → Char → Bool
  | .digits octal more _, c => more != 0 && if octal then isOctalDigit c else isHexDigit c
  | _, _ => false

/-- The escape that a backslash and a character begin. -/
def opened (c : Char) : Pending :=
  if isOctalDigit c then .digits true 2 (digitValue c)
  else if c = 'x' ∨ c = 'X' then .digits false 2 0
  else if c = 'u' then .digits false 4 0
  else if c = 'U' then .digits false 8 0
  else .nothing

/-- An escape with one digit more. -/
def push (c : Char) : Pending → Pending
  | .digits octal more code =>
    .digits octal (more - 1) ((if octal then 8 else 16) * code + digitValue c)
  | p => p

/-- What is open behind the next character. -/
def next (p : Pending) (c : Char) : Pending :=
  if p = .backslash then opened c
  else if p.takes c then p.push c
  else if c = '\\' then .backslash
  else .nothing

/-- The code of an escape that takes no more digits. -/
def close : Pending → List Nat
  | .digits _ _ code => [code]
  | _ => []

/-- The codes that are known with the next character. -/
def emits (p : Pending) (c : Char) : List Nat :=
  if p = .backslash then
    if opened c = .nothing then [simpleCode c] else []
  else if p.takes c then []
  else if c = '\\' then p.close
  else p.close ++ [c.toNat]

/-- The codes of a text behind what is open. -/
def codes : Pending → List Char → List Nat
  | p, [] => p.close
  | p, c :: rest => p.emits c ++ codes (p.next c) rest

/-- What is open behind a text. -/
def after : Pending → List Char → Pending := List.foldl next

/-! ## Seams -/

section
variable {p : Pending} {c : Char} {u v : List Char}

/-- Only an escape of digits takes a character, and it stays one. -/
theorem takes_cases (h : p.takes c = true) :
    c ≠ '\\' ∧ p ≠ .backslash ∧ p.close.length = 1 ∧ (p.push c).close.length = 1 ∧
      p.push c ≠ .backslash := by
  cases p with
  | nothing | backslash => cases h
  | digits octal more code =>
    refine ⟨?_, nofun, rfl, rfl, nofun⟩
    rintro rfl
    cases octal <;> simp [takes, isOctalDigit, isHexDigit, Text.isDigit] at h

theorem next_of_takes (h : p.takes c = true) : p.next c = p.push c ∧ p.emits c = [] := by
  have hp := (takes_cases h).2.1
  simp [next, emits, hp, h]

/-- A character that is not taken is read as if nothing were open. -/
theorem next_of_not_takes (hp : p ≠ .backslash) (h : p.takes c = false) :
    p.next c = Pending.nothing.next c ∧ p.emits c = p.close ++ Pending.nothing.emits c := by
  have hnothing : Pending.nothing.takes c = false := rfl
  simp only [next, emits, if_neg hp, h, hnothing, Bool.false_eq_true, if_false,
    if_neg (by decide : Pending.nothing ≠ .backslash), true_and]
  split <;> simp [close]

theorem opened_ne_backslash (c : Char) : opened c ≠ .backslash := by
  unfold opened
  repeat' split
  all_goals nofun

theorem next_backslash (hp : p ≠ .backslash) : p.next '\\' = .backslash := by
  have h : p.takes '\\' = false := by
    rw [← Bool.not_eq_true]
    exact fun h => (takes_cases h).1 rfl
  simp [next, hp, h]

theorem next_ne_backslash (hp : p ≠ .backslash) (hc : c ≠ '\\') : p.next c ≠ .backslash := by
  rw [next, if_neg hp]
  split
  · next h => exact (takes_cases h).2.2.2.2
  · nofun

/-- The codes of a text that goes on: what is known at the seam comes first. -/
theorem codes_append (p : Pending) (u : List Char) :
    ∃ out, ∀ v, p.codes (u ++ v) = out ++ (p.after u).codes v := by
  induction u generalizing p with
  | nil => exact ⟨[], fun _ => rfl⟩
  | cons c u ih =>
    obtain ⟨out, hout⟩ := ih (p.next c)
    refine ⟨p.emits c ++ out, fun v => ?_⟩
    rw [List.cons_append, codes, hout, List.append_assoc]
    rfl

theorem codes_of_not_takes (hp : p ≠ .backslash) (h : v.head?.any p.takes = false) :
    p.codes v = p.close ++ Pending.nothing.codes v := by
  cases v with
  | nil => simp [codes, close]
  | cons c v =>
    obtain ⟨hnext, hemits⟩ := next_of_not_takes hp h
    rw [codes, codes, hnext, hemits, List.append_assoc]

/-- An open escape adds one code at most, and none to a text that it takes a character of. -/
theorem length_codes (hp : p ≠ .backslash) (v : List Char) :
    (p.codes v).length ≤ p.close.length + (Pending.nothing.codes v).length ∧
      (v.head?.any p.takes = true →
        (p.codes v).length < p.close.length + (Pending.nothing.codes v).length) := by
  induction v generalizing p with
  | nil => exact ⟨by simp [codes, close], nofun⟩
  | cons c v ih =>
    by_cases h : p.takes c = true
    · obtain ⟨hc, -, hclose, hpush, hne⟩ := takes_cases h
      obtain ⟨hnext, hemits⟩ := next_of_takes h
      have hrest := (ih hne).1
      have hp' : p.codes (c :: v) = (p.push c).codes v := by rw [codes, hnext, hemits]; rfl
      have hplain : Pending.nothing.codes (c :: v) = c.toNat :: Pending.nothing.codes v := by
        simp [codes, next, emits, takes, close, hc]
      rw [hp', hplain, List.length_cons]
      omega
    · rw [Bool.not_eq_true] at h
      have hcodes := codes_of_not_takes (v := c :: v) hp h
      refine ⟨Nat.le_of_eq (by rw [hcodes, List.length_append]), fun htakes => ?_⟩
      exact absurd htakes (by simp [h])

/-- A text that leaves no backslash open says the same in front of what it does not take. -/
theorem codes_seam (hu : Pending.nothing.after u ≠ .backslash)
    (h : v.head?.any (Pending.nothing.after u).takes = false) :
    Pending.nothing.codes (u ++ v) = Pending.nothing.codes u ++ Pending.nothing.codes v := by
  obtain ⟨out, hout⟩ := codes_append .nothing u
  have hu' : Pending.nothing.codes u = out ++ (Pending.nothing.after u).close := by
    simpa [codes] using hout []
  rw [hout, hu', codes_of_not_takes hu h, List.append_assoc]

/-- In front of what it takes less is said. -/
theorem length_seam (hu : Pending.nothing.after u ≠ .backslash)
    (h : v.head?.any (Pending.nothing.after u).takes = true) :
    (Pending.nothing.codes (u ++ v)).length <
      (Pending.nothing.codes u).length + (Pending.nothing.codes v).length := by
  obtain ⟨out, hout⟩ := codes_append .nothing u
  have hu' : Pending.nothing.codes u = out ++ (Pending.nothing.after u).close := by
    simpa [codes] using hout []
  have hlt := (length_codes hu v).2 h
  rw [hout, hu', List.length_append, List.length_append]
  omega

end

end Pending

/-- What stands between the quotes of a literal. -/
def inner (l : List Char) : List Char := l.tail.dropLast

/-- What a literal denotes. -/
def value (l : List Char) : List Nat := Pending.nothing.codes (inner l)

/-- An escape at the end of one of these texts takes the first character behind it. -/
def Torn : List (List Char) → Prop
  | [] => False
  | w :: ws => ws.flatten.head?.any (Pending.nothing.after w).takes = true ∨ Torn ws

/-- Joined texts say what they say one by one, and less if a seam is torn. -/
theorem codes_flatten {ws : List (List Char)}
    (hws : ∀ w ∈ ws, Pending.nothing.after w ≠ .backslash) :
    (¬ Torn ws → Pending.nothing.codes ws.flatten = ws.flatMap Pending.nothing.codes) ∧
      (Torn ws →
        (Pending.nothing.codes ws.flatten).length < (ws.flatMap Pending.nothing.codes).length) := by
  induction ws with
  | nil => exact ⟨fun _ => rfl, False.elim⟩
  | cons w ws ih =>
    rw [List.forall_mem_cons] at hws
    obtain ⟨hwhole, hless⟩ := ih hws.2
    rw [List.flatten_cons, List.flatMap_cons, Torn, List.length_append]
    have hle : (Pending.nothing.codes ws.flatten).length ≤
        (ws.flatMap Pending.nothing.codes).length := by
      by_cases h : Torn ws
      · exact Nat.le_of_lt (hless h)
      · exact Nat.le_of_eq (congrArg List.length (hwhole h))
    by_cases hseam : ws.flatten.head?.any (Pending.nothing.after w).takes = true
    · have hlt := Pending.length_seam hws.1 hseam
      exact ⟨fun h => absurd (.inl hseam) h, fun _ => by omega⟩
    · have hcodes := Pending.codes_seam hws.1 (Bool.not_eq_true _ ▸ hseam)
      refine ⟨fun h => ?_, fun h => ?_⟩
      · rw [hcodes, hwhole fun ht => h (.inr ht)]
      · have hlt := hless (h.resolve_left hseam)
        rw [hcodes, List.length_append]
        omega

/-- So the codes of joined texts are those of the texts one by one if and only if no seam is torn. -/
theorem codes_flatten_iff {ws : List (List Char)}
    (hws : ∀ w ∈ ws, Pending.nothing.after w ≠ .backslash) :
    Pending.nothing.codes ws.flatten = ws.flatMap Pending.nothing.codes ↔ ¬ Torn ws := by
  obtain ⟨hwhole, hless⟩ := codes_flatten hws
  refine ⟨fun heq h => ?_, hwhole⟩
  exact absurd (congrArg List.length heq) (Nat.ne_of_lt (hless h))

/-! ## Quotes of the other kind -/

/-- The text with a backslash in front of each quote that has none. -/
def requote (quote : Char) : List Char → List Char
  | '\\' :: c :: rest => '\\' :: c :: requote quote rest
  | c :: rest => if c = quote then '\\' :: c :: requote quote rest else c :: requote quote rest
  | [] => []

/-- A text that ends with no open backslash. -/
def Whole (w : List Char) : Prop := ∀ p ≠ Pending.backslash, p.after w ≠ .backslash

section
variable {q : Char} {p : Pending} {u : List Char}

/-- What an escaped quote says is the quote. -/
theorem emits_quote (hq : isQuote q = true) (hp : p ≠ .backslash) :
    p.next q = .nothing ∧ p.emits q = p.emits '\\' ++ [q.toNat] ∧
      (p.next '\\').next q = .nothing ∧ (p.next '\\').emits q = [q.toNat] := by
  have hno {c : Char} (hc : isHexDigit c = false) (ho : isOctalDigit c = false) :
      p.takes c = false := by
    cases p with
    | digits octal more code => cases octal <;> simp [Pending.takes, hc, ho]
    | nothing | backslash => rfl
  have hb : p.takes '\\' = false := hno (by decide) (by decide)
  simp only [isQuote, Bool.or_eq_true, beq_iff_eq] at hq
  have hqt : p.takes q = false := by
    rcases hq with rfl | rfl <;> exact hno (by decide) (by decide)
  rcases hq with rfl | rfl <;>
    simp [Pending.next, Pending.emits, hp, hb, hqt, Pending.opened, simpleCode, isOctalDigit]

/-- Quotes may be escaped or not: the same is said. -/
theorem codes_requote (hq : isQuote q = true) (hp : p ≠ .backslash) (u v v' : List Char)
    (hv : (p.after u).codes v = (p.after u).codes v') :
    p.codes (requote q u ++ v) = p.codes (u ++ v') := by
  fun_induction requote q u generalizing p with
  | case1 c rest ih =>
    have hnext : p.next '\\' = .backslash := Pending.next_backslash hp
    simp only [List.cons_append, Pending.codes, hnext]
    refine congrArg _ (congrArg _ (ih (Pending.opened_ne_backslash c) ?_))
    simpa [Pending.after, hnext] using hv
  | case2 rest h ih =>
    obtain ⟨hnext, hemits, hnext', hemits'⟩ := emits_quote hq hp
    simp only [List.cons_append, Pending.codes, hnext, hemits, hnext', hemits', List.append_assoc]
    refine congrArg _ (congrArg _ (ih nofun ?_))
    simpa [Pending.after, hnext] using hv
  | case3 c rest h hc ih =>
    simp only [List.cons_append, Pending.codes]
    refine congrArg _ ?_
    by_cases hb : c = '\\'
    · cases rest with
      | nil => exact hv
      | cons y rest => exact absurd rfl (h y rest hb)
    · exact ih (Pending.next_ne_backslash hp hb) hv
  | case4 => exact hv

/-- A property of what stands in front of the quote that ends a string holds if plain characters and
escapes keep it. The digits of an escape count as plain characters. -/
theorem closes_induction (hq : isQuote q = true) {P : List Char → Prop} (nil : P [])
    (plain : ∀ x u, x ≠ q → x ≠ '\n' → x ≠ '\\' → P u → P (x :: u))
    (escape : ∀ x u, (escapeDigits? x).isSome = true → P u → P ('\\' :: x :: u)) {n : Nat}
    (h : closes q n (u ++ [q]) = true) : P u := by
  induction hlen : u.length using Nat.strongRecOn generalizing n u with
  | ind k ih =>
    subst hlen
    cases u with
    | nil => exact nil
    | cons c u =>
      cases n with
      | succ n =>
        obtain ⟨y, rest, heq, hy, hrest⟩ := Scan.closes_of_digits h
        obtain ⟨rfl, rfl⟩ := List.cons.inj heq
        obtain ⟨hyq, hyb, hyn⟩ := Scan.isHexDigit_ne hq hy
        exact plain c u hyq hyn hyb (ih u.length (Nat.lt_succ_self _) hrest rfl)
      | zero =>
        rcases Scan.closes_cases h with heq | ⟨y, rest, heq, hyq, hyn, hyb, hrest⟩ |
          ⟨y, rest, n, heq, hy, hrest⟩
        · exact absurd (List.cons.inj heq).2 (by simp)
        · obtain ⟨rfl, rfl⟩ := List.cons.inj heq
          exact plain c u hyq hyn hyb (ih u.length (Nat.lt_succ_self _) hrest rfl)
        · obtain ⟨rfl, hrest'⟩ := List.cons.inj heq
          cases u with
          | nil =>
            obtain ⟨rfl, rfl⟩ := List.cons.inj hrest'
            exact absurd rfl (Scan.closes_ne_nil hrest)
          | cons d u =>
            obtain ⟨rfl, rfl⟩ := List.cons.inj hrest'
            have hlen : u.length < ('\\' :: d :: u).length := by
              simp only [List.length_cons]
              omega
            exact escape d u (by rw [hy]; rfl) (ih u.length hlen hrest rfl)

/-- What stands in front of the quote that ends a string is whole. -/
theorem whole_of_closes (hq : isQuote q = true) {n : Nat} (h : closes q n (u ++ [q]) = true) :
    Whole u := by
  refine closes_induction hq (fun p hp => hp) (fun c u _ _ hc hu p hp => ?_)
    (fun c u _ hu p hp => ?_) h
  · exact hu _ (Pending.next_ne_backslash hp hc)
  · rw [Pending.after, List.foldl_cons, List.foldl_cons, Pending.next_backslash hp]
    exact hu _ (Pending.opened_ne_backslash c)

/-- Whole texts are joined with their quotes escaped. -/
theorem codes_requote_flatten (hq : isQuote q = true) (hp : p ≠ .backslash) {ws : List (List Char)}
    (hws : ∀ w ∈ ws, Whole w) : p.codes (ws.flatMap (requote q)) = p.codes ws.flatten := by
  induction ws generalizing p with
  | nil => rfl
  | cons w ws ih =>
    rw [List.forall_mem_cons] at hws
    rw [List.flatMap_cons, List.flatten_cons]
    exact codes_requote hq hp w _ _ (ih (hws.1 p hp) hws.2)

end

instance decidableTorn : (ws : List (List Char)) → Decidable (Torn ws)
  | [] => inferInstanceAs (Decidable False)
  | _ :: ws =>
    have := decidableTorn ws
    inferInstanceAs (Decidable (_ ∨ Torn ws))

end Spelling

/-- A literal and the white space behind it. -/
structure Quoted where
  literal : List Char
  gap : List Char
  isStrLit : isStrLit literal = true
  blank : gap.all isBlank = true

namespace Quoted

/-- The characters of a literal and of the white space behind it. -/
def chars (l : Quoted) : List Char := l.literal ++ l.gap

/-- What stands between the quotes of the literal. -/
def inner (l : Quoted) : List Char := Spelling.inner l.literal

end Quoted

namespace Spelling

/-- A literal ends with the quote that it starts with. -/
theorem isStrLit_cases {l : List Char} (h : isStrLit l = true) : ∃ q, isQuote q = true ∧
    l = q :: inner l ++ [q] ∧ closes q 0 (inner l ++ [q]) = true := by
  cases l with
  | nil => cases h
  | cons q w =>
    rw [isStrLit, Bool.and_eq_true] at h
    obtain ⟨u, rfl, -⟩ := Scan.reads_body [] h.1 w.length [] h.2 (Nat.le_refl _)
    have hinner : inner (q :: (u ++ [q])) = u := by simp [inner]
    exact ⟨q, h.1, by rw [hinner]; rfl, by rw [hinner]; exact h.2⟩

theorem inner_quoted (q : Char) (w : List Char) : inner (q :: w ++ [q]) = w := by simp [inner]

end Spelling

theorem Quoted.whole (l : Quoted) : Whole l.inner := by
  obtain ⟨q, hq, -, hcloses⟩ := isStrLit_cases l.isStrLit
  exact whole_of_closes hq hcloses

/-- The codes of joined literals are those of the literals if and only if no seam is torn. -/
theorem Quoted.value_joined {q : Char} (hq : isQuote q = true) (ls : List Quoted) :
    value (q :: ls.flatMap (fun l => requote q l.inner) ++ [q]) =
      ls.flatMap (fun l => value l.literal) ↔ ¬ Torn (ls.map Quoted.inner) := by
  have hwhole : ∀ w ∈ ls.map Quoted.inner, Whole w := by
    rintro _ h
    obtain ⟨l, -, rfl⟩ := List.mem_map.1 h
    exact l.whole
  have hnothing : Pending.nothing ≠ .backslash := nofun
  have hcodes := codes_flatten_iff fun w hw => hwhole w hw .nothing hnothing
  rw [← codes_requote_flatten hq hnothing hwhole] at hcodes
  rw [value, inner_quoted]
  simpa [List.flatMap_map, value, Quoted.inner] using hcodes

/-! ## What is joined -/

namespace Scan

section
variable {q c : Char} {w : List Char}

theorem requote_cons (hb : c ≠ '\\') (w : List Char) : requote q (c :: w) =
    if c = q then '\\' :: c :: requote q w else c :: requote q w := by
  rw [requote]
  exact fun _ _ h => absurd h hb

theorem requote_digits (hq : isQuote q = true) {ds : List Char} (hds : ds.all isHexDigit = true)
    (w : List Char) : requote q (ds ++ w) = ds ++ requote q w := by
  induction ds with
  | nil => rfl
  | cons d ds ih =>
    rw [List.all_cons, Bool.and_eq_true] at hds
    obtain ⟨hdq, hdb, -⟩ := isHexDigit_ne hq hds.1
    rw [List.cons_append, requote_cons hdb, if_neg hdq, ih hds.2]
    rfl

/-- Escapes stay as they are. -/
theorem requote_escape (hq : isQuote q = true) {e : List Char} (he : IsEscape e) (w : List Char) :
    requote q ('\\' :: e ++ w) = '\\' :: e ++ requote q w := by
  obtain ⟨x, ds, n, rfl, -, hds, -⟩ := he
  simp only [List.cons_append, requote, requote_digits hq hds]

end

section
variable {outer close : Char} {rounds : Nat} {latest latest' : List Char} {c d : Cursor}

/-- A body that is closed is what stands in front of its quote, with the other quotes escaped. -/
theorem literal_of_closed (ho : isQuote outer = true) (hc : isQuote close = true)
    (hb : body outer close rounds latest c = .ok (.closed latest', d)) :
    ∃ w, c.rest = w ++ close :: d.rest ∧ Inside close w ∧
      latest'.reverse = latest.reverse ++ requote outer w := by
  induction rounds generalizing latest c with
  | zero => cases hb
  | succ rounds ih =>
    obtain ⟨x, more, hrest, hn, hgoes⟩ := exists_cons_of_closed hb
    have hmore : (c.advance 1).rest = more := by rw [Cursor.rest_advance, hrest]; rfl
    cases hgoes with
    | closes hx hlatest he =>
      exact ⟨[], by rw [hrest, he, hmore, hx]; rfl, inside_nil, by simp [hlatest, requote]⟩
    | @escapes cs e _ hslash hescape hb =>
      obtain ⟨hcs, -, hread⟩ := (escape_covers _).ok hescape cs rfl
      obtain ⟨w, hw, hinside, hlatest⟩ := ih hb
      refine ⟨'\\' :: cs ++ w, ?_, (hcs.inside hc).append hinside, ?_⟩
      · rw [hrest, hslash, ← hmore, hread, hw]
        simp
      · rw [hlatest, requote_escape ho hcs]
        simp
    | plain hx hslash hb =>
      obtain ⟨w, hw, hinside, hlatest⟩ := ih hb
      refine ⟨x :: w, by rw [hrest, ← hmore, hw]; rfl,
        (inside_plain hx hn hslash).append hinside, ?_⟩
      rw [hlatest, requote_cons hslash]
      split <;> simp

/-- A literal that was read. -/
def quotedOf (hc : isQuote close = true) {w gap : List Char} (hw : Inside close w)
    (hgap : gap.all isBlank = true) : Quoted where
  literal := close :: w ++ [close]
  gap := gap
  isStrLit := by
    have hclose : closes close 0 [close] = true := by simp [closes]
    rw [List.cons_append, Spelling.isStrLit, hc, hw, hclose]
    rfl
  blank := hgap

/-- The string `t`, of which `latest` was read before, is made of the literals in front of `rest`. -/
def Joins (outer : Char) (latest text : List Char) (t : Token) (rest : List Char) : Prop :=
  t.kind = .stringLit → ∃ ls : List Quoted, text = ls.flatMap Quoted.chars ++ rest ∧
    t.text.toList =
      outer :: (latest.reverse ++ ls.flatMap fun l => requote outer l.inner) ++ [outer]

theorem joins_quotedToken (latest : List Char) (start : Position) (rest : List Char) :
    Joins outer latest rest (quotedToken outer latest start) rest :=
  fun _ => ⟨[], rfl, by simp [quotedToken, Token.make]⟩

theorem Joins.cons {latest latest' rest tail w gap : List Char} {t : Token}
    (h : Joins outer latest' rest t tail) (hc : isQuote close = true) (hw : Inside close w)
    (hgap : gap.all isBlank = true)
    (hlatest : latest'.reverse = latest.reverse ++ requote outer w) :
    Joins outer latest (close :: w ++ close :: gap ++ rest) t tail := by
  intro hk
  obtain ⟨ls, hls, htext⟩ := h hk
  refine ⟨quotedOf hc hw hgap :: ls, ?_, ?_⟩
  · rw [hls]
    simp [Quoted.chars, quotedOf]
  · rw [htext, hlatest, List.flatMap_cons, Quoted.inner, quotedOf, inner_quoted, List.append_assoc]

/-- A string is what its literals join to. -/
theorem literals_ends (ho : isQuote outer = true) (start : Position) (rounds : Nat)
    (latest : List Char) (c : Cursor) (hq : c.rest.head?.any isQuote = true) :
    Ends (literals outer start rounds latest) c
      (fun t d => Joins outer latest c.rest t d.rest) fun _ => True := by
  induction rounds generalizing latest c with
  | zero => exact ends_pure (joins_quotedToken latest start c.rest)
  | succ rounds ih =>
    obtain ⟨q, more, hrest, hquote⟩ : ∃ q more, c.rest = q :: more ∧ isQuote q = true := by
      cases h : c.rest with
      | nil => simp [h] at hq
      | cons q more => exact ⟨q, more, rfl, by simpa [h] using hq⟩
    have hmore : (c.advance 1).rest = more := by rw [Cursor.rest_advance, hrest]; rfl
    refine here_ends.bind ?_
    rintro opening _ ⟨-, rfl⟩
    refine (peek_ends.mono_error fun _ => trivial).bind ?_
    rintro _ c ⟨rfl, rfl⟩
    rw [hrest, List.head?_cons, Option.getD_some]
    refine (skip_ends 1).bind ?_
    rintro _ _ rfl
    refine (ends_self _ (c.advance 1)).bind fun b d hb => ?_
    cases b with
    | unterminated latest => exact ends_pure nofun
    | badEscape latest p => exact ends_pure nofun
    | closed latest' =>
      obtain ⟨w, hw, hinside, hlatest⟩ := literal_of_closed ho hquote hb
      refine ((run_ends isBlank).mono_error fun _ => trivial).bind ?_
      rintro _ e ⟨rfl, rfl⟩
      have hgap : d.rest = d.rest.takeWhile isBlank ++
          (d.advance (d.rest.takeWhile isBlank).length).rest := by
        rw [Cursor.rest_advance, drop_takeWhile, List.takeWhile_append_dropWhile]
      generalize d.advance (d.rest.takeWhile isBlank).length = e at hgap ⊢
      have htext : q :: more = q :: w ++ q :: d.rest.takeWhile isBlank ++ e.rest := by
        rw [← hmore, hw]
        conv => lhs; rw [hgap]
        simp
      rw [htext]
      refine (peek_ends.mono_error fun _ => trivial).bind ?_
      rintro _ e ⟨rfl, rfl⟩
      have hend (t : Token) (tail : List Char) (h : Joins outer latest' e.rest t tail) :
          Joins outer latest (q :: w ++ q :: d.rest.takeWhile isBlank ++ e.rest) t tail :=
        h.cons hquote hinside List.all_takeWhile hlatest
      have hstop := hend _ _ (joins_quotedToken latest' start e.rest)
      cases hhead : e.rest.head? with
      | none => exact ends_pure hstop
      | some x =>
        dsimp only
        split
        · next hx =>
          exact (ih latest' e (by rw [hhead]; exact hx)).mono fun t d h => hend t d.rest h
        · exact ends_pure hstop

/-- A token that is a string is made of the literals between its start and what is left. -/
theorem token_joins {mode : Mode} {c d : Cursor} {t : Token} (ht : token mode c = .ok (t, d))
    (hk : t.kind = .stringLit) :
    ∃ outer, isQuote outer = true ∧ Joins outer [] c.rest t d.rest := by
  rcases (token_unquoted mode c).ok ht with h | ⟨q, hhead, hq, hstring⟩
  · exact absurd hk h.ne_stringLit
  · have hrest : c.rest.head?.any isQuote = true := by simp [hhead, hq]
    exact ⟨q, hq, (literals_ends hq c.position c.rest.length [] c hrest).ok hstring⟩

end

end Scan

/-! ## The literals of a text -/

/-- A literal ends where another one from the same place on ends. -/
theorem Spelling.isStrLit_unique {l l' a b : List Char} (h : isStrLit l = true)
    (h' : isStrLit l' = true) (heq : l ++ a = l' ++ b) : l = l' := by
  obtain ⟨q, hq, hl, hcloses⟩ := isStrLit_cases h
  obtain ⟨q', -, hl', hcloses'⟩ := isStrLit_cases h'
  have hfirst : q :: (inner l ++ [q] ++ a) = q' :: (inner l' ++ [q'] ++ b) := by
    rw [hl, hl'] at heq
    simpa [inner_quoted] using heq
  obtain ⟨rfl, hrest⟩ := List.cons.inj hfirst
  have hlen : (inner l ++ [q]).length ≤ l.length + l'.length := by
    have := congrArg List.length hl
    simp only [List.length_append, List.length_cons] at this ⊢
    omega
  have hlen' : (inner l' ++ [q]).length ≤ l.length + l'.length := by
    have := congrArg List.length hl'
    simp only [List.length_append, List.length_cons] at this ⊢
    omega
  obtain ⟨u, hu, hread⟩ := Scan.reads_body a hq (l.length + l'.length) [] hcloses hlen
  obtain ⟨u', hu', hread'⟩ := Scan.reads_body b hq (l.length + l'.length) [] hcloses' hlen'
  -- both bodies are read from the same text
  let c : Cursor := ⟨inner l ++ [q] ++ a, none, { file := "" }⟩
  obtain ⟨d, hd, -, -⟩ := hread c rfl rfl
  obtain ⟨d', hd', -, -⟩ := hread' c rfl hrest
  have hclosed := (Prod.mk.inj (Except.ok.inj (hd.symm.trans hd'))).1
  have hinner : u = u' := by simpa using hclosed
  rw [hl, hl', List.append_cancel_right hu, List.append_cancel_right hu', hinner]

namespace Quoted

/-- The literals of a text start with a quote, if there are any. -/
theorem head_flatMap (ls : List Quoted) :
    ∀ x ∈ (ls.flatMap chars).head?, isQuote x = true := by
  cases ls with
  | nil => nofun
  | cons l ls =>
    obtain ⟨q, hq, hl, -⟩ := isStrLit_cases l.isStrLit
    rw [List.flatMap_cons, chars, hl]
    rintro x ⟨⟩
    exact hq

theorem isBlank_of_isQuote {x : Char} (h : isQuote x = true) : isBlank x = false := by
  simp only [isQuote, Bool.or_eq_true, beq_iff_eq] at h
  rcases h with rfl | rfl <;> decide

theorem chars_ne_nil (l : Quoted) : l.chars ≠ [] := by
  obtain ⟨q, -, hl, -⟩ := isStrLit_cases l.isStrLit
  rw [chars, hl]
  nofun

/-- A text is made of literals and white space in one way only. -/
theorem unique {ls ls' : List Quoted} (h : ls.flatMap chars = ls'.flatMap chars) : ls = ls' := by
  induction ls generalizing ls' with
  | nil =>
    cases ls' with
    | nil => rfl
    | cons l' ls' => exact absurd (List.append_eq_nil_iff.1 h.symm).1 l'.chars_ne_nil
  | cons l ls ih =>
    cases ls' with
    | nil => exact absurd (List.append_eq_nil_iff.1 h).1 l.chars_ne_nil
    | cons l' ls' =>
      simp only [List.flatMap_cons, chars, List.append_assoc] at h
      have hliteral : l.literal = l'.literal := isStrLit_unique l.isStrLit l'.isStrLit h
      rw [hliteral] at h
      have hrest := List.append_cancel_left h
      have hspan (l : Quoted) (ls : List Quoted) :=
        Scan.span_append l.blank fun x hx => isBlank_of_isQuote (head_flatMap ls x hx)
      have hgap : l.gap = l'.gap := by rw [← (hspan l ls).1, ← (hspan l' ls').1, hrest]
      rw [hgap] at hrest
      rw [ih (List.append_cancel_left hrest)]
      congr 1
      obtain ⟨_, _, _, _⟩ := l
      obtain ⟨_, _, _, _⟩ := l'
      congr

end Quoted

/-- What is handed out as a token of a kind was read from the last mark on, unless it is a comment or
carries an error. -/
theorem TokenStream.token_of_kind {mode : Mode} {s : TokenStream} {k : Kind}
    (hk : (s.scan mode).1.kind = k) (hc : k ≠ .comment) (hi : k ≠ .illegal) :
    Scan.token mode (s.scan mode).2.source.marked =
      .ok ((s.scan mode).1, (s.scan mode).2.source.current) := by
  have hcomment : Scan.Spells (fun t => t.kind ≠ k) Scan.comment := fun c =>
    (Scan.comment_kind c).mono fun t _ h => by
      rcases h with h | h <;> rw [h]
      · exact hc.symm
      · exact hi.symm
  have hlead := Source.lead_spells hcomment (fun _ => hi.symm) mode s.rounds [] s.source
  unfold TokenStream.scan at hk ⊢
  generalize s.source.lead mode s.rounds [] = r at hk hlead ⊢
  obtain ⟨lead, passed, source⟩ := r
  cases lead with
  | token t => exact absurd hk (hlead t rfl)
  | clear =>
    dsimp only [Source.take] at hk ⊢
    cases htoken : Scan.token mode source.mark.current with
    | ok r => simpa using htoken
    | error e =>
      rw [htoken] at hk
      exact absurd hk.symm hi

/-- A string that is handed out is made of the literals between the last mark and what is left. It
denotes what they denote one by one if and only if no seam between them is torn. -/
theorem string_value {mode : Mode} {s : TokenStream} (hk : (s.scan mode).1.kind = .stringLit) :
    (∃ ls : List Quoted, (s.scan mode).2.source.marked.rest =
      ls.flatMap Quoted.chars ++ (s.scan mode).2.source.current.rest) ∧
    ∀ ls : List Quoted, (s.scan mode).2.source.marked.rest =
        ls.flatMap Quoted.chars ++ (s.scan mode).2.source.current.rest →
      (value (s.scan mode).1.text.toList = ls.flatMap (fun l => value l.literal) ↔
        ¬ Torn (ls.map Quoted.inner)) := by
  obtain ⟨outer, hq, hjoins⟩ := Scan.token_joins (TokenStream.token_of_kind hk nofun nofun) hk
  obtain ⟨ls, hls, htext⟩ := hjoins hk
  refine ⟨⟨ls, hls⟩, fun ls' hls' => ?_⟩
  obtain rfl : ls' = ls := Quoted.unique (List.append_cancel_right (hls'.symm.trans hls))
  rw [htext]
  exact Quoted.value_joined hq ls'

/-- An escape of one digit is whole in front of another quote. -/
theorem string_value_sample :
    let s := TokenStream.ofBytes (Utf8.encode "\"\\1\" 'b\"'".toList) ""
    (s.scan .string).1.kind = .stringLit ∧ (s.scan .string).1.text = "\"\\1b\\\"\"" ∧
      value (s.scan .string).1.text.toList = value "\"\\1\"".toList ++ value "'b\"'".toList := by
  intro s
  have hk : (s.scan .string).1.kind = .stringLit := by decide +kernel
  let ls : List Quoted := [⟨"\"\\1\"".toList, [' '], by decide, by decide⟩,
    ⟨"'b\"'".toList, [], by decide, by decide⟩]
  have hls : (s.scan .string).2.source.marked.rest =
      ls.flatMap Quoted.chars ++ (s.scan .string).2.source.current.rest := by decide +kernel
  have hvalue := ((string_value hk).2 ls hls).2 (by decide)
  exact ⟨hk, by decide +kernel, by simpa [ls] using hvalue⟩

/-- An escape of one digit takes the digit of the next literal. -/
theorem literals_torn :
    let s := TokenStream.ofBytes (Utf8.encode "\"\\1\" \"2\"".toList) ""
    isStrLit "\"\\1\"".toList = true ∧ isStrLit "\"2\"".toList = true ∧
      (s.scan .string).1.kind = .stringLit ∧ (s.scan .string).1.text = "\"\\12\"" ∧
        value (s.scan .string).1.text.toList ≠ value "\"\\1\"".toList ++ value "\"2\"".toList := by
  decide +kernel

end ProtoIdl
