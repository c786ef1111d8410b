import OData.Text.Digit

/-!
# Decimal numerals

Writing natural numbers in base ten, plain or padded with zeros, and reading them back within a
bound. The main statement is that reading undoes writing.
-/

set_option autoImplicit false

namespace OData.Text

/-! ## Writing -/

/-- The numeral of `n`: no leading zeros, and a single zero for zero. -/
def digits (n : Nat) : List Char :=
  if n < 10 then [digitChar n] else digits (n / 10) ++ [digitChar n]
termination_by n

/-- The numeral of `n` with zeros in front up to `width` characters. -/
def paddedDigits (width n : Nat) : List Char :=
  let ds := digits n
  List.replicate (width - ds.length) '0' ++ ds

def decimal (n : Nat) : String := String.ofList (digits n)

/-- The numeral of an integer, with a minus sign where it is negative. -/
def signedDigits (i : Int) : List Char :=
  if i < 0 then '-' :: digits i.natAbs else digits i.natAbs

/-! ## Reading -/

/-- The value of the digits read so far, continued by `s`; nothing if `s` has another character. -/
def readDigits (acc : Nat) : List Char → Option Nat
  | [] => some acc
  | c :: r => (digitValue? c).bind fun d => readDigits (acc * 10 + d) r

/-- A number up to `limit`: at least one ASCII digit, leading zeros allowed, after at most one plus
sign. -/
def readUnsigned (limit : Nat) (s : List Char) : Option Nat :=
  let s := match s with
    | '+' :: r => r
    | _ => s
  if s.isEmpty then none else (readDigits 0 s).filter (· ≤ limit)

theorem readDigits_append (acc : Nat) (s t : List Char) :
    readDigits acc (s ++ t) = (readDigits acc s).bind fun a => readDigits a t := by
  induction s generalizing acc with
  | nil => rfl
  | cons c r ih =>
    simp only [List.cons_append, readDigits]
    cases digitValue? c with
    | none => rfl
    | some d => simp [ih]

theorem readDigits_digits (n : Nat) : readDigits 0 (digits n) = some n := by
  fun_induction digits n with
  | case1 n h => simp [readDigits, digitValue?_digitChar, Nat.mod_eq_of_lt h]
  | case2 n h ih =>
    rw [readDigits_append, ih]
    simp [readDigits, digitValue?_digitChar]
    omega

end OData.Text
