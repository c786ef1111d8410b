import OData.Ieee.Format
import OData.Text.Decimal

/-!
# The fewest digits that read back

The text of a binary floating-point number. `shortest` finds, among the decimals that round to the
number, one with the fewest digits and of these the nearest; the search goes from coarse decimal
grids to fine ones and ends at the grid that holds the number itself. `Layout` says how the digits
are spelled: which magnitudes are written positionally and which way an exact tie goes.
-/

set_option autoImplicit false

namespace OData.Ieee

open OData.Text

/-! ## Digits -/

inductive Tie where
  | awayFromZero
  | even
  deriving DecidableEq, Repr

/-- A positive number and the ends of the interval that rounds to it, over one denominator. -/
structure Neighbourhood where
  low : Nat
  centre : Nat
  high : Nat
  den : Nat
  /-- Whether the ends round to the number too. -/
  closed : Bool
  deriving DecidableEq, Repr

/-- The neighbourhood of `mantissa · 2 ^ exponent`, in quarters of its last place. The ends belong
to it exactly if the mantissa is even. -/
def neighbourhood (mantissa : Nat) (exponent : Int) (wideBelow : Bool) : Neighbourhood :=
  let e := exponent - 2
  let up := Nat.pow 2 e.toNat
  { low := (4 * mantissa - (if wideBelow then 2 else 1)) * up
    centre := 4 * mantissa * up
    high := (4 * mantissa + 2) * up
    den := Nat.pow 2 (-e).toNat
    closed := mantissa % 2 == 0 }

/-- Whether `digits · 10 ^ place` lies in the neighbourhood. -/
def Neighbourhood.holds (n : Neighbourhood) (digits : Nat) (place : Int) : Bool :=
  let point := digits * Nat.pow 10 place.toNat * n.den
  let low := n.low * Nat.pow 10 (-place).toNat
  let high := n.high * Nat.pow 10 (-place).toNat
  if n.closed then low ≤ point && point ≤ high else low < point && point < high

/-- The point of the grid of multiples of `10 ^ place` that lies in the neighbourhood, the nearer
one of two. -/
def Neighbourhood.onGrid? (tie : Tie) (n : Neighbourhood) (place : Int) : Option Nat :=
  let num := n.centre * Nat.pow 10 (-place).toNat
  let den := n.den * Nat.pow 10 place.toNat
  let below := num / den
  let remainder := num % den
  match n.holds below place, n.holds (below + 1) place with
  | true, false => some below
  | false, true => some (below + 1)
  | false, false => none
  | true, true =>
    if 2 * remainder < den then some below
    else if den < 2 * remainder then some (below + 1)
    else
      match tie with
      | .awayFromZero => some (below + 1)
      | .even => some (below + below % 2)

/-- The first grid with a hit, from `10 ^ (finest + steps)` down to `10 ^ finest`; on the finest
grid the number itself is a point. -/
def Neighbourhood.search (tie : Tie) (n : Neighbourhood) (finest : Int) : Nat → Nat × Int
  | 0 =>
    ((n.onGrid? tie finest).getD (n.centre * Nat.pow 10 (-finest).toNat / n.den), finest)
  | steps + 1 =>
    match n.onGrid? tie (finest + (steps + 1 : Nat)) with
    | some digits => (digits, finest + (steps + 1 : Nat))
    | none => n.search tie finest steps

/-- The fewest digits that read back as `mantissa · 2 ^ exponent`, and the place of the last of
them. -/
def shortest (tie : Tie) (mantissa : Nat) (exponent : Int) (wideBelow : Bool) : Nat × Int :=
  let n := neighbourhood mantissa exponent wideBelow
  let finest := min exponent 0
  let coarsest : Int := (digits (n.centre / n.den)).length
  n.search tie finest (coarsest - finest).toNat

/-! ## Layout -/

/-- How a number is spelled. The *point position* of `0.d₁d₂… · 10 ^ k` with `d₁ ≠ 0` is `k`. -/
structure Layout where
  /-- The least and the greatest point position written without an exponent. -/
  leastPosition : Int
  greatestPosition : Int
  /-- Whether a positive power of ten has a sign as a negative one does. -/
  plus : Bool
  tie : Tie
  deriving DecidableEq, Repr

/-- The digits `ds` with the decimal point at `position`; a fraction digit is always written. -/
def positional (ds : List Char) (position : Int) : List Char :=
  if position ≤ 0 then '0' :: '.' :: List.replicate (-position).toNat '0' ++ ds
  else
    let whole := position.toNat
    if ds.length ≤ whole then ds ++ List.replicate (whole - ds.length) '0' ++ ['.', '0']
    else ds.take whole ++ '.' :: ds.drop whole

/-- The digits `ds` with one digit before the point and a power of ten. -/
def scientific (plus : Bool) (ds : List Char) (position : Int) : List Char :=
  let fraction := ds.drop 1
  let sign := if plus ∧ 0 < position then ['+'] else []
  ds.take 1 ++ (if fraction.isEmpty then [] else '.' :: fraction) ++ 'e' :: sign ++
    signedDigits (position - 1)

def Layout.render (l : Layout) (negative : Bool) (mantissa : Nat) (exponent : Int)
    (wideBelow : Bool) : List Char :=
  let sign := if negative then ['-'] else []
  if mantissa = 0 then sign ++ ['0', '.', '0']
  else
    let (value, place) := shortest l.tie mantissa exponent wideBelow
    let ds := digits value
    let position := place + ds.length
    sign ++
      if l.leastPosition ≤ position ∧ position ≤ l.greatestPosition then positional ds position
      else scientific l.plus ds position

end OData.Ieee
