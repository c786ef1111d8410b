import OData.Text.Utf8
import OData.Text.Hex

/-!
# Percent encoding

A character that is not kept is written as the bytes of its UTF-8 form, each as `%` and two
hexadecimal digits. Decoding turns every well-formed triple back into its byte and leaves all else
alone, so a stray `%` stands for itself.
-/

set_option autoImplicit false

namespace OData.Percent

open OData.Text

def escapeByte (b : UInt8) : List Char :=
  ['%', Hex.upperDigit (b.toNat / 16), Hex.upperDigit b.toNat]

/-- A kept character as it stands, any other as its escaped bytes. -/
def escapeChar (keep : Char → Bool) (c : Char) : List Char :=
  if keep c then [c] else (Utf8.encodeChar c).flatMap escapeByte

def encode (keep : Char → Bool) (s : List Char) : List Char := s.flatMap (escapeChar keep)

def decodeBytes : List Char → List UInt8
  | [] => []
  | '%' :: a :: b :: r =>
    match Hex.digitValue? a, Hex.digitValue? b with
    | some high, some low => (high * 16 + low).toUInt8 :: decodeBytes r
    | _, _ => 0x25 :: decodeBytes (a :: b :: r)
  | c :: r => Utf8.encodeChar c ++ decodeBytes r

/-- The text that a percent-encoded text stands for, with U+FFFD for malformed bytes. -/
def decode (s : List Char) : List Char := Utf8.lossy (decodeBytes s)

end OData.Percent
