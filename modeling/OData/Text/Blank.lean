/-!
# White space

The characters that Unicode gives the property `White_Space`, twenty-five in all, and the two
operations on text that are defined by them: cutting them off the end and cutting them off both
ends. Every place that "trims" a header, a token or an environment value goes through here, so
the notion of a blank is the same one throughout.
-/

set_option autoImplicit false

namespace OData.Text

/-! ## The class -/

/-- The twenty-five characters with the property `White_Space`. -/
def isBlank (c : Char) : Bool :=
  let n := c.toNat
  (0x09 ≤ n && n ≤ 0x0D) || n == 0x20 || n == 0x85 || n == 0xA0 || n == 0x1680
    || (0x2000 ≤ n && n ≤ 0x200A) || n == 0x2028 || n == 0x2029 || n == 0x202F
    || n == 0x205F || n == 0x3000

/-- A text of blanks alone, the empty text included. -/
def isAllBlank (s : List Char) : Bool := s.all isBlank

/-! ## Cutting -/

/-- A list without the longest run at its end whose members satisfy `p`. -/
def dropEndWhile {α : Type} (p : α → Bool) (s : List α) : List α :=
  (s.reverse.dropWhile p).reverse

def trimEnd (s : List Char) : List Char := dropEndWhile isBlank s

def trim (s : List Char) : List Char := trimEnd (s.dropWhile isBlank)

def trimmed (s : String) : String := String.ofList (trim s.toList)

end OData.Text
