import OData.Text.Decimal
import OData.Text.Blank

/-!
# Durations

A duration is a signed number of nanoseconds whose whole seconds fit 64 bits. It is written in the
form of ISO 8601 with hours as the largest unit, such as `PT1H30M`, `PT0.5S` and `-PT2H`; units
that are zero are left out, and no time at all is `PT0S`.
-/

set_option autoImplicit false

namespace OData

open OData.Text

def nanosPerSecond : Nat := 1000000000

/-- The seconds that a duration stays below. -/
def secondsBound : Nat := 0x8000000000000000

structure Duration where
  nanos : Int
  above : -(secondsBound + 1 : Int) * nanosPerSecond < nanos
  below : nanos < (secondsBound : Int) * nanosPerSecond
  deriving DecidableEq, Repr

/-- A fraction of a second: nothing if there is none, else a point and digits that do not end in
zero. -/
def fractionText (nanos : Nat) : List Char :=
  if nanos = 0 then [] else '.' :: dropEndWhile (· == '0') (paddedDigits 9 nanos)

namespace Duration

def zero : Duration := ⟨0, by decide, by decide⟩

/-- The longest duration. -/
def longest : Duration := ⟨(secondsBound : Int) * nanosPerSecond - 1, by decide, by decide⟩

def ofParts? (seconds nanos : Int) : Option Duration :=
  let total := seconds * nanosPerSecond + nanos
  if above : -(secondsBound + 1 : Int) * nanosPerSecond < total then
    if below : total < (secondsBound : Int) * nanosPerSecond then some ⟨total, above, below⟩ else none
  else none

/-- So many seconds and nanoseconds, and the longest duration if they do not fit. -/
def clamped (seconds nanos : Nat) : Duration := (ofParts? seconds nanos).getD longest

/-- The nanoseconds of the duration without its sign. Durations whose whole seconds have no
positive counterpart in 64 bits count as the longest one. -/
def magnitude (d : Duration) : Nat :=
  if d.nanos.natAbs < secondsBound * nanosPerSecond then d.nanos.natAbs else longest.nanos.natAbs

def isoMagnitude (nanos : Nat) : List Char :=
  let total := nanos / nanosPerSecond
  let hours := total / 3600
  let minutes := total % 3600 / 60
  let seconds := total % 60
  let rest := nanos % nanosPerSecond
  'P' :: 'T' :: ((if hours = 0 then [] else digits hours ++ ['H'])
    ++ (if minutes = 0 then [] else digits minutes ++ ['M'])
    ++ (if seconds = 0 ∧ rest = 0 then [] else digits seconds ++ fractionText rest ++ ['S']))

def iso (d : Duration) : String :=
  if d.nanos = 0 then "PT0S"
  else String.ofList ((if d.nanos < 0 then ['-'] else []) ++ isoMagnitude d.magnitude)

end Duration

end OData
