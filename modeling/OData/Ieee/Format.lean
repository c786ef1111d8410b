/-!
# Binary floating point

The two interchange formats of IEEE 754 that literals and JSON numbers use, as bit patterns with
an exact meaning: a finite pattern denotes `± mantissa · 2 ^ exponent`. `Format.decode` reads a
pattern and `Format.round` finds the pattern nearest to a quotient of natural numbers. All
arithmetic is on natural numbers, so nothing here depends on the rounding of the machine.
-/

set_option autoImplicit false

namespace OData.Ieee

/-- A binary format by the widths of its fraction and exponent fields. -/
structure Format where
  fractionBits : Nat
  exponentBits : Nat
  deriving DecidableEq, Repr

def single : Format := ⟨23, 8⟩

def double : Format := ⟨52, 11⟩

namespace Format

/-- The exponent field of infinities and NaNs. -/
def topExponent (f : Format) : Nat := Nat.pow 2 f.exponentBits - 1

/-- The exponent of the last place of the smallest numbers. -/
def leastExponent (f : Format) : Int :=
  2 - (Nat.pow 2 (f.exponentBits - 1) : Int) - f.fractionBits

/-- The bit pattern of positive infinity. -/
def infinityBits (f : Format) : Nat := f.topExponent * Nat.pow 2 f.fractionBits

def signBit (f : Format) : Nat := Nat.pow 2 (f.fractionBits + f.exponentBits)

end Format

/-! ## What a pattern means -/

inductive Value where
  | nan
  | infinite (negative : Bool)
  /-- `± mantissa · 2 ^ exponent`; `wideBelow` tells that the neighbour towards zero is as far
  away as the one above, which fails only at powers of two. -/
  | finite (negative : Bool) (mantissa : Nat) (exponent : Int) (wideBelow : Bool)
  deriving DecidableEq, Repr

def Format.decode (f : Format) (bits : Nat) : Value :=
  let negative := bits / f.signBit % 2 == 1
  let field := bits / Nat.pow 2 f.fractionBits % Nat.pow 2 f.exponentBits
  let fraction := bits % Nat.pow 2 f.fractionBits
  if field = f.topExponent then
    if fraction = 0 then .infinite negative else .nan
  else if field = 0 then .finite negative fraction f.leastExponent true
  else
    .finite negative (fraction + Nat.pow 2 f.fractionBits) (f.leastExponent + field - 1)
      (fraction != 0 || field == 1)

/-! ## Rounding -/

/-- The natural number nearest to `num / den`, and the even one of two that are equally near. -/
def divNearest (num den : Nat) : Nat :=
  let q := num / den
  let r := num % den
  if 2 * r < den then q
  else if 2 * r = den then q + q % 2
  else q + 1

def scaledNearest (num den : Nat) (e : Int) : Nat :=
  if e < 0 then divNearest (num * Nat.pow 2 (-e).toNat) den
  else divNearest num (den * Nat.pow 2 e.toNat)

/-- The integer `e` with `2 ^ e ≤ num / den < 2 ^ (e + 1)`, for positive `num` and `den`. -/
def binaryOrder (num den : Nat) : Int :=
  let e : Int := (Nat.log2 num : Int) - Nat.log2 den
  let reached : Bool :=
    if e < 0 then den ≤ num * Nat.pow 2 (-e).toNat else den * Nat.pow 2 e.toNat ≤ num
  if reached then e else e - 1

/-- The pattern of the non-negative number nearest to `num / den`, and the one with even mantissa
of two that are equally near. Numbers beyond the range go to infinity. -/
def Format.round (f : Format) (num den : Nat) : Nat :=
  if num = 0 then 0
  else
    let place := max (binaryOrder num den - f.fractionBits) f.leastExponent
    let mantissa := scaledNearest num den place
    let implied := Nat.pow 2 f.fractionBits
    let bits :=
      if mantissa < implied then mantissa
      else ((place - f.leastExponent).toNat + 1) * implied + (mantissa - implied)
    min bits f.infinityBits

/-! ## Double precision numbers -/

structure Double where
  bits : UInt64
  deriving DecidableEq, Repr

namespace Double

def value (d : Double) : Value := double.decode d.bits.toNat

def ofMagnitude (negative : Bool) (bits : Nat) : Double :=
  ⟨(if negative then bits + double.signBit else bits).toUInt64⟩

def ofInt (i : Int) : Double := ofMagnitude (i < 0) (double.round i.natAbs 1)

end Double

end OData.Ieee
