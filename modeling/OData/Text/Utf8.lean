/-!
# UTF-8

Text as bytes and back. The decoder is a machine that takes one byte at a time; a byte that cannot
continue the character under way ends it as malformed and is looked at again as a first byte, so
each *maximal* malformed run of bytes counts once. Two readings are made from it:
`Utf8.lossy`, which puts U+FFFD for each malformed run, and `Utf8.decode?`, which refuses
them. The main statement is that both undo `Utf8.encode`.
-/

set_option autoImplicit false

namespace OData.Text.Utf8

/-! ## Encoding -/

def encodeChar (c : Char) : List UInt8 :=
  let n := c.toNat
  if n < 0x80 then [n.toUInt8]
  else if n < 0x800 then [(0xC0 + n / 0x40).toUInt8, (0x80 + n % 0x40).toUInt8]
  else if n < 0x10000 then
    [(0xE0 + n / 0x1000).toUInt8, (0x80 + n / 0x40 % 0x40).toUInt8, (0x80 + n % 0x40).toUInt8]
  else
    [(0xF0 + n / 0x40000).toUInt8, (0x80 + n / 0x1000 % 0x40).toUInt8,
     (0x80 + n / 0x40 % 0x40).toUInt8, (0x80 + n % 0x40).toUInt8]

def encode (s : List Char) : List UInt8 := s.flatMap encodeChar

def ofString (s : String) : List UInt8 := encode s.toList

/-! ## The machine -/

inductive State where
  | start
  /-- Inside a character: how many bytes are owed, the bounds of the next one, and the value of
  the bits so far. -/
  | owing (count : Nat) (low high : Nat) (value : Nat)
  deriving DecidableEq, Repr

/-- What the machine puts out: a character, or a malformed run of bytes. -/
inductive Piece where
  | char (c : Char)
  | malformed
  deriving DecidableEq, Repr

/-- A byte seen between characters. The bounds on the second byte rule out overlong forms,
surrogates and values above U+10FFFF. -/
def first (b : Nat) : List Piece × State :=
  if b < 0x80 then ([.char (Char.ofNat b)], .start)
  else if 0xC2 ≤ b ∧ b ≤ 0xDF then ([], .owing 1 0x80 0xBF (b - 0xC0))
  else if b = 0xE0 then ([], .owing 2 0xA0 0xBF 0)
  else if b = 0xED then ([], .owing 2 0x80 0x9F 0xD)
  else if 0xE1 ≤ b ∧ b ≤ 0xEF then ([], .owing 2 0x80 0xBF (b - 0xE0))
  else if b = 0xF0 then ([], .owing 3 0x90 0xBF 0)
  else if 0xF1 ≤ b ∧ b ≤ 0xF3 then ([], .owing 3 0x80 0xBF (b - 0xF0))
  else if b = 0xF4 then ([], .owing 3 0x80 0x8F 4)
  else ([.malformed], .start)

def step : State → Nat → List Piece × State
  | .start, b => first b
  | .owing count low high value, b =>
    if low ≤ b ∧ b ≤ high then
      let value := value * 0x40 + (b - 0x80)
      if count ≤ 1 then ([.char (Char.ofNat value)], .start)
      else ([], .owing (count - 1) 0x80 0xBF value)
    else
      let (pieces, state) := first b
      (.malformed :: pieces, state)

/-- The pieces of a run of bytes; a character cut off by the end is malformed. -/
def run : State → List UInt8 → List Piece
  | .start, [] => []
  | .owing .., [] => [.malformed]
  | state, b :: r =>
    let (pieces, state) := step state b.toNat
    pieces ++ run state r

/-! ## Two readings -/

def replacement : Char := '\ufffd'

/-- The text of some bytes with U+FFFD for each malformed run. -/
def lossy (bytes : List UInt8) : List Char :=
  (run .start bytes).map fun
    | .char c => c
    | .malformed => replacement

/-- The text of some bytes, if none of them are malformed. -/
def decode? (bytes : List UInt8) : Option (List Char) :=
  (run .start bytes).mapM fun
    | .char c => some c
    | .malformed => none

def toStringLossy (bytes : List UInt8) : String := String.ofList (lossy bytes)

/-! ## The readings undo the encoding -/

theorem toNat_toUInt8 {k : Nat} (h : k < 256) : k.toUInt8.toNat = k := by
  simp [Nat.mod_eq_of_lt h]

theorem run_start_cons (b : UInt8) (r : List UInt8) :
    run .start (b :: r) = (first b.toNat).1 ++ run (first b.toNat).2 r := by
  cases r <;> rfl

theorem run_owing_cons {count low high value : Nat} {b : UInt8} (h : low ≤ b.toNat ∧ b.toNat ≤ high)
    (r : List UInt8) :
    run (.owing count low high value) (b :: r) =
      if count ≤ 1 then .char (Char.ofNat (value * 0x40 + (b.toNat - 0x80))) :: run .start r
      else run (.owing (count - 1) 0x80 0xBF (value * 0x40 + (b.toNat - 0x80))) r := by
  cases r <;> (simp only [run, step, if_pos h]; split <;> rfl)

/-- The first of three bytes: only two of them bound the second byte more narrowly. -/
theorem first_three {b : Nat} (h : 0xE0 ≤ b ∧ b ≤ 0xEF) :
    first b = ([], .owing 2 (if b = 0xE0 then 0xA0 else 0x80) (if b = 0xED then 0x9F else 0xBF)
      (b - 0xE0)) := by
  have h1 : ¬ b < 0x80 := by omega
  have h2 : ¬ (0xC2 ≤ b ∧ b ≤ 0xDF) := by omega
  rw [first, if_neg h1, if_neg h2]
  by_cases h3 : b = 0xE0
  · subst h3; rfl
  · by_cases h4 : b = 0xED
    · subst h4; rfl
    · rw [if_neg h3, if_neg h4, if_pos (by omega), if_neg h3, if_neg h4]

theorem first_four {b : Nat} (h : 0xF0 ≤ b ∧ b ≤ 0xF4) :
    first b = ([], .owing 3 (if b = 0xF0 then 0x90 else 0x80) (if b = 0xF4 then 0x8F else 0xBF)
      (b - 0xF0)) := by
  have : b = 0xF0 ∨ b = 0xF1 ∨ b = 0xF2 ∨ b = 0xF3 ∨ b = 0xF4 := by omega
  rcases this with rfl | rfl | rfl | rfl | rfl <;> rfl

/-- The bytes of a character give just that character and leave the machine between characters. -/
theorem run_encodeChar (c : Char) (r : List UInt8) :
    run .start (encodeChar c ++ r) = .char c :: run .start r := by
  have hc : c.toNat < 0xD800 ∨ 0xDFFF < c.toNat ∧ c.toNat < 0x110000 := by
    have := c.valid
    simpa [UInt32.isValidChar, Nat.isValidChar] using this
  have hn : Char.ofNat c.toNat = c := Char.ofNat_toNat c
  unfold encodeChar
  generalize c.toNat = n at hc hn
  dsimp only
  split
  · next h =>
    simp [run_start_cons, toNat_toUInt8 (show n < 256 by omega), first, h, hn]
  split
  · next h =>
    have h1 : ¬ 0xC0 + n / 0x40 < 0x80 := by omega
    have h2 : 0xC2 ≤ 0xC0 + n / 0x40 ∧ 0xC0 + n / 0x40 ≤ 0xDF := by omega
    have hf : first (0xC0 + n / 0x40) = ([], .owing 1 0x80 0xBF (n / 0x40)) := by
      rw [first, if_neg h1, if_pos h2, Nat.add_sub_cancel_left]
    have hb : (0x80 + n % 0x40).toUInt8.toNat = 0x80 + n % 0x40 := toNat_toUInt8 (by omega)
    simp only [List.cons_append, List.nil_append]
    rw [run_start_cons, toNat_toUInt8 (by omega), hf, List.nil_append,
      run_owing_cons (by omega), if_pos (by omega), hb,
      show n / 0x40 * 0x40 + (0x80 + n % 0x40 - 0x80) = n by omega, hn]
  split
  · next h =>
    have hb : (0x80 + n / 0x40 % 0x40).toUInt8.toNat = 0x80 + n / 0x40 % 0x40 :=
      toNat_toUInt8 (by omega)
    have hd : (0x80 + n % 0x40).toUInt8.toNat = 0x80 + n % 0x40 := toNat_toUInt8 (by omega)
    simp only [List.cons_append, List.nil_append]
    rw [run_start_cons, toNat_toUInt8 (by omega), first_three (by omega), List.nil_append,
      run_owing_cons (by rw [hb]; split <;> split <;> omega), if_neg (by decide), hb,
      run_owing_cons (by omega), if_pos (by decide), hd,
      show ((0xE0 + n / 0x1000 - 0xE0) * 0x40 + (0x80 + n / 0x40 % 0x40 - 0x80)) * 0x40 +
        (0x80 + n % 0x40 - 0x80) = n by omega, hn]
  · next h =>
    have hb : (0x80 + n / 0x1000 % 0x40).toUInt8.toNat = 0x80 + n / 0x1000 % 0x40 :=
      toNat_toUInt8 (by omega)
    have hd : (0x80 + n / 0x40 % 0x40).toUInt8.toNat = 0x80 + n / 0x40 % 0x40 :=
      toNat_toUInt8 (by omega)
    have he : (0x80 + n % 0x40).toUInt8.toNat = 0x80 + n % 0x40 := toNat_toUInt8 (by omega)
    simp only [List.cons_append, List.nil_append]
    rw [run_start_cons, toNat_toUInt8 (by omega), first_four (by omega), List.nil_append,
      run_owing_cons (by rw [hb]; split <;> split <;> omega), if_neg (by decide), hb,
      run_owing_cons (by omega), if_neg (by decide), hd,
      run_owing_cons (by omega), if_pos (by decide), he,
      show (((0xF0 + n / 0x40000 - 0xF0) * 0x40 + (0x80 + n / 0x1000 % 0x40 - 0x80)) * 0x40 +
        (0x80 + n / 0x40 % 0x40 - 0x80)) * 0x40 + (0x80 + n % 0x40 - 0x80) = n by omega, hn]

theorem run_encode (s : List Char) : run .start (encode s) = s.map .char := by
  induction s with
  | nil => rfl
  | cons c r ih =>
    rw [encode, List.flatMap_cons, run_encodeChar]
    exact congrArg (.char c :: ·) ih

theorem lossy_encode (s : List Char) : lossy (encode s) = s := by
  rw [lossy, run_encode, List.map_map]
  exact List.map_id s

theorem decode?_encode (s : List Char) : decode? (encode s) = some s := by
  rw [decode?, run_encode]
  induction s with
  | nil => rfl
  | cons c r ih => simp [ih]

end OData.Text.Utf8
