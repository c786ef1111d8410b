import OData.Json.Basic
import OData.Ieee.Shortest
import OData.Text.Hex

/-!
# Writing JSON

Documents without any white space. Strings escape quotes, backslashes and control characters;
numbers that are not integers always show a point or an exponent, and have the fewest digits that
read back.
-/

set_option autoImplicit false

namespace OData.Json

open OData.Text OData.Ieee

/-- Numbers from `0.00001` up to `10 ^ 16` are written without an exponent; an exponent always has a
sign. -/
def numberLayout : Layout := ⟨-4, 16, true, .even⟩

/-- The text of a double; one that is not finite has none in JSON and becomes `null`. -/
def doubleChars (d : Double) : List Char :=
  match d.value with
  | .finite negative mantissa exponent wideBelow =>
    numberLayout.render negative mantissa exponent wideBelow
  | _ => ['n', 'u', 'l', 'l']

def escapedChar (c : Char) : List Char :=
  if c = '"' then ['\\', '"']
  else if c = '\\' then ['\\', '\\']
  else if c = '\x08' then ['\\', 'b']
  else if c = '\t' then ['\\', 't']
  else if c = '\n' then ['\\', 'n']
  else if c = '\x0c' then ['\\', 'f']
  else if c = '\r' then ['\\', 'r']
  else if c.toNat < 0x20 then '\\' :: 'u' :: Hex.fixed 4 c.toNat
  else [c]

def quoted (s : String) : List Char := '"' :: s.toList.flatMap escapedChar ++ ['"']

mutual

def chars : Json → List Char
  | null => ['n', 'u', 'l', 'l']
  | boolean true => ['t', 'r', 'u', 'e']
  | boolean false => ['f', 'a', 'l', 's', 'e']
  | integer i => signedDigits i
  | number d => doubleChars d
  | text s => quoted s
  | list items => '[' :: itemsChars items ++ [']']
  | object members => '{' :: membersChars members ++ ['}']

def itemsChars : List Json → List Char
  | [] => []
  | [v] => v.chars
  | v :: w :: r => v.chars ++ ',' :: itemsChars (w :: r)

def membersChars : List (String × Json) → List Char
  | [] => []
  | [(k, v)] => quoted k ++ ':' :: v.chars
  | (k, v) :: m :: r => quoted k ++ ':' :: v.chars ++ ',' :: membersChars (m :: r)

end

def render (v : Json) : String := String.ofList v.chars

end OData.Json
