/-!
# Byte sources

A stream of bytes that is read once. It ends after its last byte, or it breaks off there, and then
every further read fails. A *metered* source comes off the wire, so the bytes pulled from it count
as traffic; one in memory does not.
-/

set_option autoImplicit false

namespace OData

structure Source where
  rest : List UInt8
  breaksOff : Bool
  metered : Bool
  deriving DecidableEq, Repr

namespace Source

/-- What a read from a stream that broke off reports. -/
def breakText : String := "stream broke"

def ofBytes (bytes : List UInt8) : Source := ⟨bytes, false, false⟩

/-- A source in memory that breaks off after so many bytes, if it has them. -/
def breakingAfter (n : Option Nat) (bytes : List UInt8) : Source :=
  match n with
  | some n => if n ≤ bytes.length then ⟨bytes.take n, true, false⟩ else ofBytes bytes
  | none => ofBytes bytes

/-- The same stream off the wire. -/
def overWire (s : Source) : Source := { s with metered := true }

def traffic (s : Source) (n : Nat) : Nat := if s.metered then n else 0

/-- How many bytes are pulled by a reader that asks for blocks of `size` bytes and uses `used` of
them. -/
def inBlocks (s : Source) (size used : Nat) : Nat :=
  min s.rest.length ((used + size - 1) / size * size)

end Source

end OData
