/-!
# Base sixteen

Hexadecimal digits in either case, one at a time and for whole bytes.
-/

set_option autoImplicit false

namespace OData.Text.Hex

def lowerDigit (n : Nat) : Char :=
  if n % 16 < 10 then Char.ofNat (0x30 + n % 16) else Char.ofNat (0x61 + (n % 16 - 10))

def upperDigit (n : Nat) : Char :=
  if n % 16 < 10 then Char.ofNat (0x30 + n % 16) else Char.ofNat (0x41 + (n % 16 - 10))

def codeValue? (n : Nat) : Option Nat :=
  if 0x30 ≤ n ∧ n ≤ 0x39 then some (n - 0x30)
  else if 0x61 ≤ n ∧ n ≤ 0x66 then some (n - 0x61 + 10)
  else if 0x41 ≤ n ∧ n ≤ 0x46 then some (n - 0x41 + 10)
  else none

def digitValue? (c : Char) : Option Nat := codeValue? c.toNat

/-- Digits of `n` in exactly `width` places, most significant first. -/
def fixed : Nat → Nat → List Char
  | 0, _ => []
  | width + 1, n => fixed width (n / 16) ++ [lowerDigit n]

def read (acc : Nat) : List Char → Option Nat
  | [] => some acc
  | c :: r => (digitValue? c).bind fun d => read (acc * 16 + d) r

def ofBytes (bytes : List UInt8) : List Char :=
  bytes.flatMap fun b => [lowerDigit (b.toNat / 16), lowerDigit b.toNat]

def toBytes? : List Char → Option (List UInt8)
  | [] => some []
  | [_] => none
  | a :: b :: r => do
    let high ← digitValue? a
    let low ← digitValue? b
    let rest ← toBytes? r
    return (high * 16 + low).toUInt8 :: rest

theorem lowerDigit_mod (n : Nat) : lowerDigit (n % 16) = lowerDigit n := by
  simp [lowerDigit]

theorem upperDigit_mod (n : Nat) : upperDigit (n % 16) = upperDigit n := by
  simp [upperDigit]

theorem digitValue?_upperDigit (n : Nat) : digitValue? (upperDigit n) = some (n % 16) := by
  have hall : ∀ k < 16, digitValue? (upperDigit k) = some k := by decide
  rw [← upperDigit_mod]
  exact hall _ (Nat.mod_lt n (by decide))

end OData.Text.Hex
