/-!
# Base 64

Bytes as text in the standard alphabet, padded with `=` to a multiple of four characters.
-/

set_option autoImplicit false

namespace OData.Text.Base64

def digit (n : Nat) : Char :=
  let n := n % 64
  if n < 26 then Char.ofNat (0x41 + n)
  else if n < 52 then Char.ofNat (0x61 + (n - 26))
  else if n < 62 then Char.ofNat (0x30 + (n - 52))
  else if n = 62 then '+' else '/'

/-- Three bytes become four characters; one or two left over become two or three and padding. -/
def encode : List UInt8 → List Char
  | [] => []
  | [a] =>
    let n := a.toNat * 0x10
    [digit (n / 0x40), digit n, '=', '=']
  | [a, b] =>
    let n := (a.toNat * 0x100 + b.toNat) * 4
    [digit (n / 0x1000), digit (n / 0x40), digit n, '=']
  | a :: b :: c :: r =>
    let n := a.toNat * 0x10000 + b.toNat * 0x100 + c.toNat
    digit (n / 0x40000) :: digit (n / 0x1000) :: digit (n / 0x40) :: digit n :: encode r

end OData.Text.Base64
