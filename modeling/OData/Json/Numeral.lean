import OData.Json.Basic

/-!
# Reading JSON numbers

A machine that takes a number byte by byte. The leading digits are collected in a 64-bit
significand; digits beyond that only move the decimal point, or, after the point, are passed over.
An integer that fits 64 bits stays exact. Any other number is made from the significand rounded to
a double, which is then multiplied or divided by a rounded power of ten, so it can be off by a unit
in the last place; a number above the range of doubles is refused.
-/

set_option autoImplicit false

namespace OData.Json

open OData.Ieee

/-! ## Doubles from a significand and a power of ten -/

def magnitudeParts (bits : Nat) : Nat × Int :=
  match double.decode bits with
  | .finite _ mantissa exponent _ => (mantissa, exponent)
  | _ => (0, 0)

def roundScaled (num den : Nat) (e : Int) : Nat :=
  double.round (num * Nat.pow 2 e.toNat) (den * Nat.pow 2 (-e).toNat)

def product (a b : Nat) : Nat :=
  let (m, e) := magnitudeParts a
  let (n, f) := magnitudeParts b
  roundScaled (m * n) 1 (e + f)

def quotient (a b : Nat) : Nat :=
  let (m, e) := magnitudeParts a
  let (n, f) := magnitudeParts b
  roundScaled m n (e - f)

def powerOfTen (e : Nat) : Nat := double.round (Nat.pow 10 e) 1

/-- A magnitude times a power of ten, dividing in steps where one division is not enough; nothing
if the result is too large. -/
def scaleByTen (magnitude : Nat) (power : Int) : Option Nat :=
  if power.natAbs ≤ 308 then
    if 0 ≤ power then
      let scaled := product magnitude (powerOfTen power.natAbs)
      if scaled < double.infinityBits then some scaled else none
    else some (quotient magnitude (powerOfTen power.natAbs))
  else if magnitude = 0 then some 0
  else if 0 ≤ power then none
  else scaleByTen (quotient magnitude (powerOfTen 308)) (power + 308)
termination_by power.natAbs
decreasing_by omega

/-! ## The machine -/

inductive Numeral.Stage where
  | sign
  | zero
  | whole
  | point
  | fraction
  | mark
  | markSign
  | power
  deriving DecidableEq, Repr

structure Numeral where
  stage : Numeral.Stage
  negative : Bool := false
  significand : Nat := 0
  /-- The power of ten that the significand is to be multiplied with. -/
  scale : Int := 0
  /-- No further digits before the point are taken. -/
  wholeFull : Bool := false
  /-- No further digits after the point are taken. -/
  fractionFull : Bool := false
  powerNegative : Bool := false
  power : Nat := 0
  vanished : Bool := false
  deriving DecidableEq, Repr

inductive Numeral.Next where
  | more (n : Numeral)
  | done
  /-- The number is malformed; `taken` tells whether the byte was used up. -/
  | malformed (taken : Bool)
  deriving DecidableEq, Repr

namespace Numeral

def start? (b : Nat) : Option Numeral :=
  if b = 0x2D then some { stage := .sign, negative := true }
  else if b = 0x30 then some { stage := .zero }
  else if 0x31 ≤ b ∧ b ≤ 0x39 then some { stage := .whole, significand := b - 0x30 }
  else none

/-- Whether a further digit still fits 64 bits. -/
def fits (n : Numeral) (digit : Nat) : Bool := n.significand * 10 + digit < UInt64.size

def wholeDigit (n : Numeral) (digit : Nat) : Numeral :=
  if !n.wholeFull && n.fits digit then
    { n with stage := .whole, significand := n.significand * 10 + digit }
  else { n with wholeFull := true, scale := n.scale + 1 }

def fractionDigit (n : Numeral) (digit : Nat) : Numeral :=
  if !n.fractionFull && n.fits digit then
    { n with
      stage := .fraction, significand := n.significand * 10 + digit, scale := n.scale - 1 }
  else { n with stage := .fraction, fractionFull := true }

/-- A digit of the exponent. Where the number is kept, an exponent beyond 31 bits ends it: with
nothing remaining if the number is zero or the exponent negative, and as too large otherwise. -/
def powerDigit (keep : Bool) (n : Numeral) (digit : Nat) : Next :=
  if n.vanished then .more n
  else if n.power * 10 + digit < 0x80000000 then
    .more { n with stage := .power, power := n.power * 10 + digit }
  else if keep && n.significand != 0 && !n.powerNegative then .malformed true
  else .more { n with stage := .power, vanished := true }

/-- One byte. `keep` tells whether the number is wanted or only passed over. -/
def step (keep : Bool) (n : Numeral) (b : Nat) : Next :=
  let digit? := if 0x30 ≤ b ∧ b ≤ 0x39 then some (b - 0x30) else none
  let isMark := b = 0x65 ∨ b = 0x45
  match n.stage, digit? with
  | .sign, some 0 => .more { n with stage := .zero }
  | .sign, some d => .more { n with stage := .whole, significand := d }
  | .sign, none => .malformed true
  | .zero, some _ => .malformed false
  | .zero, none =>
    if b = 0x2E then .more { n with stage := .point }
    else if isMark then .more { n with stage := .mark } else .done
  | .whole, some d => .more (n.wholeDigit d)
  | .whole, none =>
    if b = 0x2E then .more { n with stage := .point }
    else if isMark then .more { n with stage := .mark } else .done
  | .point, some d => .more (n.fractionDigit d)
  | .point, none => .malformed false
  | .fraction, some d => .more (n.fractionDigit d)
  | .fraction, none => if isMark then .more { n with stage := .mark } else .done
  | .mark, some d => n.powerDigit keep d
  | .mark, none =>
    if b = 0x2B then .more { n with stage := .markSign }
    else if b = 0x2D then .more { n with stage := .markSign, powerNegative := true }
    else .malformed true
  | .markSign, some d => n.powerDigit keep d
  | .markSign, none => .malformed true
  | .power, some d => n.powerDigit keep d
  | .power, none => .done

def isComplete (n : Numeral) : Bool :=
  match n.stage with
  | .zero | .whole | .fraction | .power => true
  | .sign | .point | .mark | .markSign => false

def isWhole (n : Numeral) : Bool := n.stage == .zero || n.stage == .whole

def toDouble? (n : Numeral) : Option Double :=
  if n.vanished then some (Double.ofMagnitude n.negative 0)
  else
    let power := if n.powerNegative then n.scale - n.power else n.scale + n.power
    (scaleByTen (double.round n.significand 1) power).map (Double.ofMagnitude n.negative)

/-- The value of a complete number; nothing if it is out of range. Minus zero is a double. -/
def value? (n : Numeral) : Option Json :=
  if n.isWhole && !n.wholeFull then
    if !n.negative then some (.integer n.significand)
    else if n.significand = 0 || 0x8000000000000000 < n.significand then
      some (.number (Double.ofMagnitude true (double.round n.significand 1)))
    else some (.integer (-(n.significand : Int)))
  else n.toDouble?.map .number

end Numeral

end OData.Json
