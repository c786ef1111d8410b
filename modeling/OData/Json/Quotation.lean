import OData.Text.Utf8
import OData.Text.Hex

/-!
# Reading JSON strings

A machine that takes a string byte by byte, starting after the opening quote. A string that is
wanted has to be sound: escapes outside the basic plane come as pairs, and its bytes are UTF-8. A
string that is only passed over needs well-formed escapes and nothing more.
-/

set_option autoImplicit false

namespace OData.Json

open OData.Text

inductive Quotation.Stage where
  | plain
  | escape
  /-- Inside a four-digit escape: the bytes taken, newest first, and the first half of a pair that
  came before. -/
  | hex (taken : List Nat) (lead : Option Nat)
  /-- After the first half of a pair, before the backslash of the second. -/
  | wantBackslash (lead : Nat)
  /-- After that backslash. -/
  | wantU (lead : Nat)
  deriving DecidableEq, Repr

/-- A string under way: its bytes so far, newest first. -/
structure Quotation where
  stage : Quotation.Stage := .plain
  bytes : List UInt8 := []
  deriving DecidableEq, Repr

inductive Quotation.Next where
  | more (q : Quotation)
  | done (bytes : List UInt8)
  | malformed
  deriving DecidableEq, Repr

namespace Quotation

def shortEscape? (b : Nat) : Option Nat :=
  if b = 0x22 then some 0x22
  else if b = 0x5C then some 0x5C
  else if b = 0x2F then some 0x2F
  else if b = 0x62 then some 0x08
  else if b = 0x66 then some 0x0C
  else if b = 0x6E then some 0x0A
  else if b = 0x72 then some 0x0D
  else if b = 0x74 then some 0x09
  else none

/-- The value of four hexadecimal digits, most significant first. -/
def hexValue? (digits : List Nat) : Option Nat :=
  digits.foldl (fun acc b => acc.bind fun n => (Hex.codeValue? b).map (n * 16 + ·)) (some 0)

def push (q : Quotation) (c : Char) : Quotation :=
  { stage := .plain, bytes := (Utf8.encodeChar c).reverse ++ q.bytes }

def unit (q : Quotation) (lead : Option Nat) (n : Nat) : Next :=
  match lead with
  | none =>
    if 0xDC00 ≤ n ∧ n ≤ 0xDFFF then .malformed
    else if 0xD800 ≤ n ∧ n ≤ 0xDBFF then .more { q with stage := .wantBackslash n }
    else .more (q.push (Char.ofNat n))
  | some high =>
    if 0xDC00 ≤ n ∧ n ≤ 0xDFFF then
      .more (q.push (Char.ofNat ((high - 0xD800) * 0x400 + (n - 0xDC00) + 0x10000)))
    else .malformed

/-- One byte. `keep` tells whether the string is wanted or only passed over. -/
def step (keep : Bool) (q : Quotation) (byte : UInt8) : Next :=
  let b := byte.toNat
  match q.stage with
  | .plain =>
    if b = 0x22 then .done q.bytes.reverse
    else if b = 0x5C then .more { q with stage := .escape }
    else if b < 0x20 then .malformed
    else .more { q with bytes := byte :: q.bytes }
  | .escape =>
    if b = 0x75 then .more { q with stage := .hex [] none }
    else
      match shortEscape? b with
      | some e => .more { stage := .plain, bytes := e.toUInt8 :: q.bytes }
      | none => .malformed
  | .hex taken lead =>
    if taken.length < 3 then .more { q with stage := .hex (b :: taken) lead }
    else
      match hexValue? (b :: taken).reverse with
      | none => .malformed
      | some n => if keep then q.unit lead n else .more { q with stage := .plain }
  | .wantBackslash lead =>
    if b = 0x5C then .more { q with stage := .wantU lead } else .malformed
  | .wantU lead =>
    if b = 0x75 then .more { q with stage := .hex [] (some lead) } else .malformed

def text? (bytes : List UInt8) : Option String := (Utf8.decode? bytes).map String.ofList

end Quotation

end OData.Json
