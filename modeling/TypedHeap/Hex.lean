/-! # Hexadecimal text -/

namespace TypedHeap.Hex

def digit (n : Nat) : Char :=
  if n < 10 then Char.ofNat (48 + n) else Char.ofNat (87 + n)

def fixed : Nat → Nat → List Char
  | 0, _ => []
  | width + 1, n => fixed width (n / 16) ++ [digit (n % 16)]

def value? (c : Char) : Option Nat :=
  if '0' ≤ c ∧ c ≤ '9' then some (c.toNat - 48)
  else if 'a' ≤ c ∧ c ≤ 'f' then some (c.toNat - 87)
  else if 'A' ≤ c ∧ c ≤ 'F' then some (c.toNat - 55)
  else none

/-- An address or size, without leading zeros: `0x1f`. -/
def short (n : Nat) : String := "0x" ++ String.ofList (Nat.toDigits 16 n)

def word (n : Nat) : String := "0x" ++ String.ofList (fixed 16 n)

end TypedHeap.Hex
