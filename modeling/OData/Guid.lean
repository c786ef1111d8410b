import OData.Text.Hex

/-!
# Globally unique identifiers

A guid is 128 bits. It is written in groups of 8, 4, 4, 4 and 12 hexadecimal digits with hyphens
between them, and read in that form with digits of either case.
-/

set_option autoImplicit false

namespace OData

open OData.Text

structure Guid where
  high : UInt64
  low : UInt64
  deriving DecidableEq, Repr

namespace Guid

def groups : List Nat := [8, 4, 4, 4, 12]

def hyphenate : List Nat → List Char → List Char
  | [], ds => ds
  | [_], ds => ds
  | n :: m :: ns, ds => ds.take n ++ '-' :: hyphenate (m :: ns) (ds.drop n)

def render (g : Guid) : String :=
  String.ofList (hyphenate groups (Hex.fixed 16 g.high.toNat ++ Hex.fixed 16 g.low.toNat))

def ungroup? : List Nat → List Char → Option (List Char)
  | [], s => if s.isEmpty then some [] else none
  | [n], s => if s.length = n then some s else none
  | n :: m :: ns, s =>
    match s.drop n with
    | '-' :: rest => (ungroup? (m :: ns) rest).map (s.take n ++ ·)
    | _ => none

def parse? (s : String) : Option Guid := do
  let ds ← ungroup? groups s.toList
  let high ← Hex.read 0 (ds.take 16)
  let low ← Hex.read 0 (ds.drop 16)
  return ⟨high.toUInt64, low.toUInt64⟩

end Guid

end OData
