import ProtoIdl.Text.Utf8
/-!
# Decoding is the inverse of encoding

`Utf8.encode` writes characters as octets. `decode_encode` reads them back; `encode_decode` says that
the characters `decode` finds are the octets it has passed over, and that no character starts
where it stops. So `decode` finds the longest well-formed beginning of its octets.
-/
namespace ProtoIdl.Utf8

/-- The octets of a text. -/
def encode (cs : List Char) : List UInt8 := cs.flatMap String.utf8EncodeChar

@[simp]
theorem encode_nil : encode [] = [] := rfl

@[simp]
theorem encode_cons (c : Char) (cs : List Char) :
    encode (c :: cs) = String.utf8EncodeChar c ++ encode cs := rfl

theorem encode_append (cs ds : List Char) : encode (cs ++ ds) = encode cs ++ encode ds :=
  List.flatMap_append

/-! ## Octets as numbers -/

/-- The table of first octets, over numbers. -/
theorem lead_eq (b : UInt8) : lead b =
    if b.toNat < 0x80 then .single
    else if b.toNat < 0xC2 then .none
    else if b.toNat < 0xE0 then .pair
    else if b.toNat < 0xF0 then
      .triple (if b.toNat = 0xE0 then 0xA0 else 0x80) (if b.toNat = 0xED then 0x9F else 0xBF)
    else if b.toNat < 0xF5 then
      .quadruple (if b.toNat = 0xF0 then 0x90 else 0x80) (if b.toNat = 0xF4 then 0x8F else 0xBF)
    else .none := by
  simp only [lead, UInt8.lt_iff_toNat_lt, ← UInt8.toNat_inj, UInt8.reduceToNat]
  grind

theorem isContinuation_iff {b : UInt8} :
    isContinuation b = true ↔ 0x80 ≤ b.toNat ∧ b.toNat ≤ 0xBF := by
  simp [isContinuation, UInt8.le_iff_toNat_le]

theorem toNat_ofNat {n : Nat} (h : n < 256) : (UInt8.ofNat n).toNat = n := by simpa using h

theorem eq_ofNat {b : UInt8} {n : Nat} (h : b.toNat = n) : UInt8.ofNat n = b := by
  rw [← h, UInt8.ofNat_toNat]

theorem isContinuation_ofNat (n : Nat) : isContinuation (UInt8.ofNat (n % 64 + 128)) = true := by
  rw [isContinuation_iff, toNat_ofNat (by omega)]
  omega

theorem payload_ofNat (n : Nat) : payload (UInt8.ofNat (n % 64 + 128)) = n % 64 := by
  rw [payload, toNat_ofNat (by omega)]
  omega

theorem add_payload {b : UInt8} (h : isContinuation b = true) : payload b + 128 = b.toNat := by
  obtain ⟨h₁, h₂⟩ := isContinuation_iff.1 h
  rw [payload]
  omega

theorem payload_lt (b : UInt8) : payload b < 64 := Nat.mod_lt _ (by decide)

/-- What a second octet in its range is, behind the first octet of a triple. -/
theorem range_triple {b₀ b₁ low high : UInt8} (h₀ : lead b₀ = .triple low high)
    (h₁ : ¬ (b₁ < low ∨ high < b₁)) : (0xE0 ≤ b₀.toNat ∧ b₀.toNat < 0xF0) ∧
      isContinuation b₁ = true ∧ (b₀.toNat = 0xE0 → 0xA0 ≤ b₁.toNat) ∧
      (b₀.toNat = 0xED → b₁.toNat ≤ 0x9F) := by
  have hb : 0xE0 ≤ b₀.toNat ∧ b₀.toNat < 0xF0 := by rw [lead_eq] at h₀; grind
  rw [lead_eq, if_neg (by omega), if_neg (by omega), if_neg (by omega), if_pos hb.2] at h₀
  simp only [Lead.triple.injEq] at h₀
  obtain ⟨rfl, rfl⟩ := h₀
  simp only [UInt8.lt_iff_toNat_lt, apply_ite UInt8.toNat, UInt8.reduceToNat] at h₁
  rw [isContinuation_iff]
  grind

/-- What a second octet in its range is, behind the first octet of a quadruple. -/
theorem range_quadruple {b₀ b₁ low high : UInt8} (h₀ : lead b₀ = .quadruple low high)
    (h₁ : ¬ (b₁ < low ∨ high < b₁)) : (0xF0 ≤ b₀.toNat ∧ b₀.toNat < 0xF5) ∧
      isContinuation b₁ = true ∧ (b₀.toNat = 0xF0 → 0x90 ≤ b₁.toNat) ∧
      (b₀.toNat = 0xF4 → b₁.toNat ≤ 0x8F) := by
  have hb : 0xF0 ≤ b₀.toNat ∧ b₀.toNat < 0xF5 := by rw [lead_eq] at h₀; grind
  rw [lead_eq, if_neg (by omega), if_neg (by omega), if_neg (by omega), if_neg (by omega),
    if_pos hb.2] at h₀
  simp only [Lead.quadruple.injEq] at h₀
  obtain ⟨rfl, rfl⟩ := h₀
  simp only [UInt8.lt_iff_toNat_lt, apply_ite UInt8.toNat, UInt8.reduceToNat] at h₁
  rw [isContinuation_iff]
  grind

/-- Code points are no surrogates and have a bound. -/
theorem codePoint_range (c : Char) :
    c.toNat < 0xD800 ∨ 0xDFFF < c.toNat ∧ c.toNat < 0x110000 := by
  have := c.valid
  simpa [UInt32.isValidChar, Nat.isValidChar] using this

theorem toNat_charOfNat {n : Nat} (h : n < 0xD800 ∨ 0xDFFF < n ∧ n < 0x110000) :
    (Char.ofNat n).toNat = n := by
  have hv : n.isValidChar := by simpa [Nat.isValidChar] using h
  rw [Char.ofNat, dif_pos hv]
  rfl

/-! ## Reading the octets of a character -/

theorem decode_single {b : UInt8} {c : Char} (rest : List UInt8) (h : b.toNat < 0x80)
    (hc : b.toNat = c.toNat) : decode (b :: rest) = (c :: (decode rest).1, (decode rest).2) := by
  have hl : lead b = .single := by rw [lead_eq, if_pos h]
  rw [decode.eq_def]
  simp [hl, hc]

theorem decode_pair {b₀ b₁ : UInt8} {c : Char} (rest : List UInt8)
    (h₀ : 0xC2 ≤ b₀.toNat ∧ b₀.toNat < 0xE0) (h₁ : isContinuation b₁ = true)
    (hc : b₀.toNat % 32 * 64 + payload b₁ = c.toNat) :
    decode (b₀ :: b₁ :: rest) = (c :: (decode rest).1, (decode rest).2) := by
  have hl : lead b₀ = .pair := by rw [lead_eq, if_neg (by omega), if_neg (by omega), if_pos h₀.2]
  rw [decode.eq_def]
  simp [hl, h₁, hc]

/-- The range of the second octet rules out exactly the overlong forms and the surrogates. -/
theorem decode_triple {b₀ b₁ b₂ : UInt8} {c : Char} (rest : List UInt8)
    (h₀ : 0xE0 ≤ b₀.toNat ∧ b₀.toNat < 0xF0) (h₁ : isContinuation b₁ = true)
    (h₂ : isContinuation b₂ = true) (hlong : 0x800 ≤ c.toNat)
    (hc : (b₀.toNat % 16 * 64 + payload b₁) * 64 + payload b₂ = c.toNat) :
    decode (b₀ :: b₁ :: b₂ :: rest) = (c :: (decode rest).1, (decode rest).2) := by
  have hv := codePoint_range c
  have hp := payload_lt b₂
  have hb := isContinuation_iff.1 h₁
  have hl : lead b₀ = .triple (if b₀.toNat = 0xE0 then 0xA0 else 0x80)
      (if b₀.toNat = 0xED then 0x9F else 0xBF) := by
    rw [lead_eq, if_neg (by omega), if_neg (by omega), if_neg (by omega), if_pos h₀.2]
  have hr : ¬ (b₁ < (if b₀.toNat = 0xE0 then 0xA0 else 0x80 : UInt8) ∨
      (if b₀.toNat = 0xED then 0x9F else 0xBF : UInt8) < b₁) := by
    rw [payload] at hc
    simp only [UInt8.lt_iff_toNat_lt, apply_ite UInt8.toNat, UInt8.reduceToNat]
    split <;> split <;> omega
  rw [decode.eq_def]
  simp only [hl, hr, h₂, hc, ↓reduceIte, Bool.not_true, Bool.false_eq_true, Char.ofNat_toNat]

theorem decode_quadruple {b₀ b₁ b₂ b₃ : UInt8} {c : Char} (rest : List UInt8)
    (h₀ : 0xF0 ≤ b₀.toNat ∧ b₀.toNat < 0xF5) (h₁ : isContinuation b₁ = true)
    (h₂ : isContinuation b₂ = true) (h₃ : isContinuation b₃ = true) (hlong : 0x10000 ≤ c.toNat)
    (hc : ((b₀.toNat % 8 * 64 + payload b₁) * 64 + payload b₂) * 64 + payload b₃ = c.toNat) :
    decode (b₀ :: b₁ :: b₂ :: b₃ :: rest) = (c :: (decode rest).1, (decode rest).2) := by
  have hv := codePoint_range c
  have hp₂ := payload_lt b₂
  have hp₃ := payload_lt b₃
  have hb := isContinuation_iff.1 h₁
  have hl : lead b₀ = .quadruple (if b₀.toNat = 0xF0 then 0x90 else 0x80)
      (if b₀.toNat = 0xF4 then 0x8F else 0xBF) := by
    rw [lead_eq, if_neg (by omega), if_neg (by omega), if_neg (by omega), if_neg (by omega),
      if_pos h₀.2]
  have hr : ¬ (b₁ < (if b₀.toNat = 0xF0 then 0x90 else 0x80 : UInt8) ∨
      (if b₀.toNat = 0xF4 then 0x8F else 0xBF : UInt8) < b₁) := by
    rw [payload] at hc
    simp only [UInt8.lt_iff_toNat_lt, apply_ite UInt8.toNat, UInt8.reduceToNat]
    split <;> split <;> omega
  rw [decode.eq_def]
  simp only [hl, hr, h₂, h₃, hc, ↓reduceIte, Bool.not_true, Bool.false_eq_true, Char.ofNat_toNat]

/-- The octets of a character are read as that character. -/
theorem decode_encodeChar (c : Char) (rest : List UInt8) :
    decode (String.utf8EncodeChar c ++ rest) = (c :: (decode rest).1, (decode rest).2) := by
  have hv := codePoint_range c
  unfold String.utf8EncodeChar
  simp only [show c.val.toNat = c.toNat from rfl]
  split
  · have h₀ : (UInt8.ofNat c.toNat).toNat = c.toNat := toNat_ofNat (by omega)
    exact decode_single rest (by omega) h₀
  split
  · have h₀ : (UInt8.ofNat (c.toNat / 64 % 32 + 192)).toNat = c.toNat / 64 % 32 + 192 :=
      toNat_ofNat (by omega)
    refine decode_pair rest (by omega) (isContinuation_ofNat _) ?_
    rw [payload_ofNat, h₀]
    omega
  split
  · have h₀ : (UInt8.ofNat (c.toNat / 4096 % 16 + 224)).toNat = c.toNat / 4096 % 16 + 224 :=
      toNat_ofNat (by omega)
    refine decode_triple rest (by omega) (isContinuation_ofNat _) (isContinuation_ofNat _)
      (by omega) ?_
    rw [payload_ofNat, payload_ofNat, h₀]
    omega
  · have h₀ : (UInt8.ofNat (c.toNat / 262144 % 8 + 240)).toNat = c.toNat / 262144 % 8 + 240 :=
      toNat_ofNat (by omega)
    refine decode_quadruple rest (by omega) (isContinuation_ofNat _) (isContinuation_ofNat _)
      (isContinuation_ofNat _) (by omega) ?_
    rw [payload_ofNat, payload_ofNat, payload_ofNat, h₀]
    omega

/-- The octets of a text are read as that text, whatever follows. -/
theorem decode_encode_append (cs : List Char) (rest : List UInt8) :
    decode (encode cs ++ rest) = (cs ++ (decode rest).1, (decode rest).2) := by
  induction cs with
  | nil => rfl
  | cons c cs ih => rw [encode_cons, List.append_assoc, decode_encodeChar, ih, List.cons_append]

/-- A text is read back from its octets. -/
@[simp]
theorem decode_encode (cs : List Char) : decode (encode cs) = (cs, none) := by
  simpa [decode] using decode_encode_append cs []

/-! ## Writing the characters read -/

theorem encodeChar_single {b : UInt8} (h : b.toNat < 0x80) :
    String.utf8EncodeChar (Char.ofNat b.toNat) = [b] := by
  have hn : (Char.ofNat b.toNat).val.toNat = b.toNat := toNat_charOfNat (by omega)
  unfold String.utf8EncodeChar
  simp only [hn]
  rw [if_pos (by omega), UInt8.ofNat_toNat]

theorem encodeChar_pair {b₀ b₁ : UInt8} (h₀ : 0xC2 ≤ b₀.toNat ∧ b₀.toNat < 0xE0)
    (h₁ : isContinuation b₁ = true) :
    String.utf8EncodeChar (Char.ofNat (b₀.toNat % 32 * 64 + payload b₁)) = [b₀, b₁] := by
  have hp := payload_lt b₁
  have ha := add_payload h₁
  have hn : (Char.ofNat (b₀.toNat % 32 * 64 + payload b₁)).val.toNat = _ := toNat_charOfNat (by omega)
  unfold String.utf8EncodeChar
  simp only [hn]
  rw [if_neg (by omega), if_pos (by omega), eq_ofNat (b := b₀) (by omega),
    eq_ofNat (b := b₁) (by omega)]

theorem encodeChar_triple {b₀ b₁ b₂ : UInt8} (h₀ : 0xE0 ≤ b₀.toNat ∧ b₀.toNat < 0xF0)
    (h₁ : isContinuation b₁ = true) (h₂ : isContinuation b₂ = true)
    (hlow : b₀.toNat = 0xE0 → 0xA0 ≤ b₁.toNat) (hhigh : b₀.toNat = 0xED → b₁.toNat ≤ 0x9F) :
    String.utf8EncodeChar (Char.ofNat ((b₀.toNat % 16 * 64 + payload b₁) * 64 + payload b₂)) =
      [b₀, b₁, b₂] := by
  have hp₁ := payload_lt b₁
  have hp₂ := payload_lt b₂
  have ha₁ := add_payload h₁
  have ha₂ := add_payload h₂
  have hn : (Char.ofNat ((b₀.toNat % 16 * 64 + payload b₁) * 64 + payload b₂)).val.toNat = _ :=
    toNat_charOfNat (by omega)
  unfold String.utf8EncodeChar
  simp only [hn]
  rw [if_neg (by omega), if_neg (by omega), if_pos (by omega), eq_ofNat (b := b₀) (by omega),
    eq_ofNat (b := b₁) (by omega), eq_ofNat (b := b₂) (by omega)]

theorem encodeChar_quadruple {b₀ b₁ b₂ b₃ : UInt8} (h₀ : 0xF0 ≤ b₀.toNat ∧ b₀.toNat < 0xF5)
    (h₁ : isContinuation b₁ = true) (h₂ : isContinuation b₂ = true)
    (h₃ : isContinuation b₃ = true)
    (hlow : b₀.toNat = 0xF0 → 0x90 ≤ b₁.toNat) (hhigh : b₀.toNat = 0xF4 → b₁.toNat ≤ 0x8F) :
    String.utf8EncodeChar
        (Char.ofNat (((b₀.toNat % 8 * 64 + payload b₁) * 64 + payload b₂) * 64 + payload b₃)) =
      [b₀, b₁, b₂, b₃] := by
  have hp₁ := payload_lt b₁
  have hp₂ := payload_lt b₂
  have hp₃ := payload_lt b₃
  have ha₁ := add_payload h₁
  have ha₂ := add_payload h₂
  have ha₃ := add_payload h₃
  have hn : (Char.ofNat (((b₀.toNat % 8 * 64 + payload b₁) * 64 + payload b₂) * 64 +
      payload b₃)).val.toNat = _ := toNat_charOfNat (by omega)
  unfold String.utf8EncodeChar
  simp only [hn]
  rw [if_neg (by omega), if_neg (by omega), if_neg (by omega), eq_ofNat (b := b₀) (by omega),
    eq_ofNat (b := b₁) (by omega), eq_ofNat (b := b₂) (by omega), eq_ofNat (b := b₃) (by omega)]

/-- Only the empty text has neither a character nor a fault. -/
theorem eq_nil_of_decode {bytes : List UInt8} (h : decode bytes = ([], none)) : bytes = [] := by
  cases bytes with
  | nil => rfl
  | cons b₀ rest =>
    rw [decode.eq_def] at h
    grind

/-- The characters read are the octets passed over, and no character starts behind them. -/
theorem encode_decode (bytes : List UInt8) : ∃ rest,
    bytes = encode (decode bytes).1 ++ rest ∧ decode rest = ([], (decode bytes).2) := by
  fun_induction decode bytes with
  | case3 b₀ rest hl cs fault hd ih =>
    obtain ⟨left, he, hr⟩ := ih
    rw [hd] at he hr
    have h₀ : b₀.toNat < 0x80 := by rw [lead_eq] at hl; grind
    exact ⟨left, by rw [encode_cons, encodeChar_single h₀, he]; rfl, hr⟩
  | case6 b₀ hl b₁ rest h₁ cs fault hd ih =>
    obtain ⟨left, he, hr⟩ := ih
    rw [hd] at he hr
    have h₀ : 0xC2 ≤ b₀.toNat ∧ b₀.toNat < 0xE0 := by rw [lead_eq] at hl; grind
    exact ⟨left, by rw [encode_cons, encodeChar_pair h₀ (by simpa using h₁), he]; rfl, hr⟩
  | case11 b₀ low high hl b₁ h₁ b₂ rest h₂ cs fault hd ih =>
    obtain ⟨left, he, hr⟩ := ih
    rw [hd] at he hr
    obtain ⟨h₀, h₁, hlow, hhigh⟩ := range_triple hl h₁
    refine ⟨left, ?_, hr⟩
    rw [encode_cons, encodeChar_triple h₀ h₁ (by simpa using h₂) hlow hhigh, he]
    rfl
  | case18 b₀ low high hl b₁ h₁ b₂ h₂ b₃ rest h₃ cs fault hd point ih =>
    obtain ⟨left, he, hr⟩ := ih
    rw [hd] at he hr
    obtain ⟨h₀, h₁, hlow, hhigh⟩ := range_quadruple hl h₁
    refine ⟨left, ?_, hr⟩
    rw [encode_cons, encodeChar_quadruple h₀ h₁ (by simpa using h₂) (by simpa using h₃) hlow hhigh,
      he]
    rfl
  | case1 => exact ⟨[], rfl, rfl⟩
  | _ => exact ⟨_, rfl, by rw [decode.eq_def]; simp [*]⟩

/-- Octets without a fault are the octets of their characters. -/
theorem encode_of_decode {bytes : List UInt8} (hb : (decode bytes).2 = none) :
    encode (decode bytes).1 = bytes := by
  obtain ⟨rest, he, hrest⟩ := encode_decode bytes
  rw [hb] at hrest
  obtain rfl := eq_nil_of_decode hrest
  rw [← he.trans (List.append_nil _)]

/-! ## Newlines among the octets -/

/-- The octet of a newline stands in the octets of the newline only. -/
theorem count_encodeChar (c : Char) :
    (String.utf8EncodeChar c).count 10 = if c = '\n' then 1 else 0 := by
  have hv := codePoint_range c
  have hnl : c = '\n' ↔ c.toNat = 10 := by
    rw [← Char.toNat_inj]
    rfl
  have hhigh : ∀ n, 128 ≤ n → n < 256 → ¬ (10 : UInt8) = UInt8.ofNat n := fun n h₁ h₂ h => by
    have := congrArg UInt8.toNat h
    rw [toNat_ofNat h₂] at this
    change 10 = n at this
    omega
  unfold String.utf8EncodeChar
  simp only [show c.val.toNat = c.toNat from rfl, hnl]
  split
  · have hten : UInt8.ofNat c.toNat = 10 ↔ c.toNat = 10 := by
      rw [← UInt8.toNat_inj, toNat_ofNat (by omega)]
      rfl
    simp only [List.count_singleton, beq_iff_eq, hten]
  -- every octet of a longer sequence is at least 128
  rw [if_neg (show ¬ c.toNat = 10 by omega), List.count_eq_zero]
  split
  · simp only [List.mem_cons, List.not_mem_nil, or_false, not_or]
    exact ⟨hhigh _ (by omega) (by omega), hhigh _ (by omega) (by omega)⟩
  split
  · simp only [List.mem_cons, List.not_mem_nil, or_false, not_or]
    exact ⟨hhigh _ (by omega) (by omega), hhigh _ (by omega) (by omega),
      hhigh _ (by omega) (by omega)⟩
  · simp only [List.mem_cons, List.not_mem_nil, or_false, not_or]
    exact ⟨hhigh _ (by omega) (by omega), hhigh _ (by omega) (by omega),
      hhigh _ (by omega) (by omega), hhigh _ (by omega) (by omega)⟩

/-- So the newlines of a text can be counted in its octets. -/
theorem count_encode (cs : List Char) : (encode cs).count 10 = cs.count '\n' := by
  induction cs with
  | nil => rfl
  | cons c cs ih =>
    rw [encode_cons, List.count_append, count_encodeChar, ih, List.count_cons]
    grind

end ProtoIdl.Utf8
