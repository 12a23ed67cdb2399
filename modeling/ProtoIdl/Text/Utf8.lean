/-!
# Reading UTF-8

`Utf8.decode` turns octets into the characters of their longest well-formed beginning and says what
is wrong with the first ill-formed sequence, if there is one. A sequence is well formed exactly when
it is the shortest form of a code point that is not a surrogate; `Utf8.lead` states this through the
range that the second octet has to lie in.
-/
namespace ProtoIdl.Utf8

/-- What is wrong with an ill-formed sequence. -/
inductive Fault
  /-- An octet that starts no sequence. -/
  | invalidStart
  /-- An octet that cannot stand where it does in the sequence begun. -/
  | invalidContinuation
  /-- The octets end within a sequence that is correct so far. -/
  | unexpectedEnd
deriving DecidableEq, Repr

/-- The wording of a fault (the reason of a decode error in `RuneSource._fill`). -/
def Fault.message : Fault → String
  | .invalidStart => "invalid start byte"
  | .invalidContinuation => "invalid continuation byte"
  | .unexpectedEnd => "unexpected end of data"

/-- What a first octet announces. The longer sequences restrict their second octet, which rules out
overlong forms, surrogates and code points above the last one. -/
inductive Lead
  | single
  | pair
  | triple (low high : UInt8)
  | quadruple (low high : UInt8)
  | none
deriving DecidableEq, Repr

/-- The table of first octets. -/
def lead (b : UInt8) : Lead :=
  if b < 0x80 then .single
  else if b < 0xC2 then .none
  else if b < 0xE0 then .pair
  else if b = 0xE0 then .triple 0xA0 0xBF
  else if b = 0xED then .triple 0x80 0x9F
  else if b < 0xF0 then .triple 0x80 0xBF
  else if b = 0xF0 then .quadruple 0x90 0xBF
  else if b < 0xF4 then .quadruple 0x80 0xBF
  else if b = 0xF4 then .quadruple 0x80 0x8F
  else .none

/-- An octet that carries six bits of a code point. -/
def isContinuation (b : UInt8) : Bool := decide (0x80 ≤ b) && decide (b ≤ 0xBF)

/-- The six bits that a continuation octet carries. -/
def payload (b : UInt8) : Nat := b.toNat % 64

/-- The characters of the longest well-formed beginning, and the fault behind it, if any (the decoder
of `RuneSource._fill`). -/
def decode : List UInt8 → List Char × Option Fault
  | [] => ([], none)
  | b₀ :: rest =>
    match lead b₀ with
    | .none => ([], some .invalidStart)
    | .single => let (cs, fault) := decode rest; (Char.ofNat b₀.toNat :: cs, fault)
    | .pair =>
      match rest with
      | [] => ([], some .unexpectedEnd)
      | b₁ :: rest =>
        if !isContinuation b₁ then ([], some .invalidContinuation)
        else
          let (cs, fault) := decode rest
          (Char.ofNat (b₀.toNat % 32 * 64 + payload b₁) :: cs, fault)
    | .triple low high =>
      match rest with
      | [] => ([], some .unexpectedEnd)
      | b₁ :: rest =>
        if b₁ < low ∨ high < b₁ then ([], some .invalidContinuation)
        else match rest with
        | [] => ([], some .unexpectedEnd)
        | b₂ :: rest =>
          if !isContinuation b₂ then ([], some .invalidContinuation)
          else
            let (cs, fault) := decode rest
            (Char.ofNat ((b₀.toNat % 16 * 64 + payload b₁) * 64 + payload b₂) :: cs, fault)
    | .quadruple low high =>
      match rest with
      | [] => ([], some .unexpectedEnd)
      | b₁ :: rest =>
        if b₁ < low ∨ high < b₁ then ([], some .invalidContinuation)
        else match rest with
        | [] => ([], some .unexpectedEnd)
        | b₂ :: rest =>
          if !isContinuation b₂ then ([], some .invalidContinuation)
          else match rest with
          | [] => ([], some .unexpectedEnd)
          | b₃ :: rest =>
            if !isContinuation b₃ then ([], some .invalidContinuation)
            else
              let (cs, fault) := decode rest
              let point := ((b₀.toNat % 8 * 64 + payload b₁) * 64 + payload b₂) * 64 + payload b₃
              (Char.ofNat point :: cs, fault)

end ProtoIdl.Utf8
