import OData.Proofs.Text.Trim
import OData.Text.Decimal

/-!
# Numerals as text

A numeral has digits only (`mem_digits`), so trimming leaves it alone (`trim_digits`), and reading
it gives the number back **within the bound of the reader** (`readUnsigned_digits`), with zeros in
front as without (`readDigits_paddedDigits`).
-/

set_option autoImplicit false

namespace OData.Text

/-! ## Trimming -/

theorem trim_eq_self {s : List Char} (h : ∀ c ∈ s, isBlank c = false) : trim s = s :=
  trim_eq_self_iff.mpr (isTrimmed_of_forall h)

theorem trim_blank_cons (s : List Char) : trim (' ' :: s) = trim s := by
  rw [trim, List.dropWhile_cons_of_pos (by decide), trim]

/-! ## Digits -/

theorem digitChar_mem (n : Nat) : digitChar n ∈ "0123456789".toList := by
  have hall : ∀ k < 10, digitChar k ∈ "0123456789".toList := by decide
  rw [← digitChar_mod]
  exact hall _ (Nat.mod_lt n (by decide))

theorem mem_digits {n : Nat} {c : Char} (h : c ∈ digits n) : c ∈ "0123456789".toList := by
  fun_induction digits n with
  | case1 n _ =>
    rw [List.mem_singleton.mp h]
    exact digitChar_mem n
  | case2 n _ ih =>
    rcases List.mem_append.mp h with h | h
    · exact ih h
    · rw [List.mem_singleton.mp h]
      exact digitChar_mem n

theorem isDecimalDigit_of_mem {c : Char} (h : c ∈ "0123456789".toList) :
    isDecimalDigit c = true := by
  have hall : "0123456789".toList.all isDecimalDigit = true := by decide +kernel
  exact List.all_eq_true.mp hall c h

/-- A numeral begins with a digit that is zero only for zero, and goes on to its number. -/
theorem digits_eq_cons (n : Nat) :
    ∃ d r, digits n = digitChar d :: r ∧ d < 10 ∧ (0 < n → 0 < d) ∧ readDigits d r = some n := by
  fun_induction digits n with
  | case1 n h => exact ⟨n, [], rfl, h, id, rfl⟩
  | case2 n h ih =>
    obtain ⟨d, r, hds, hd, hfirst, hr⟩ := ih
    refine ⟨d, r ++ [digitChar n], ?_, hd, fun _ => hfirst (by omega), ?_⟩
    · rw [hds, List.cons_append]
    · have hvalue : n / 10 * 10 + n % 10 = n := by omega
      rw [readDigits_append, hr]
      simp [readDigits, digitValue?_digitChar, hvalue]

theorem digits_ne_nil (n : Nat) : digits n ≠ [] := by
  unfold digits
  split <;> simp

theorem toList_decimal (n : Nat) : (decimal n).toList = digits n := String.toList_ofList

/-- No digit is a blank, so a numeral has none around it. -/
theorem isTrimmed_of_numerals {s : List Char} (h : ∀ c ∈ s, c ∈ "0123456789".toList) :
    IsTrimmed s := by
  have hall : ∀ c ∈ "0123456789".toList, isBlank c = false := by simp [isBlank]
  refine isTrimmed_of_forall ?_
  intro c hc
  exact hall c (h c hc)

theorem trim_digits (n : Nat) : trim (digits n) = digits n :=
  trim_eq_self_iff.mpr (isTrimmed_of_numerals fun _ => mem_digits)

/-- **A numeral is read as its number**, within the bound. The reader allows a plus sign in front,
which a numeral does not have. -/
theorem readUnsigned_digits {limit n : Nat} (h : n ≤ limit) :
    readUnsigned limit (digits n) = some n := by
  unfold readUnsigned
  split
  · next hs =>
    have hplus : '+' ∈ digits n := by simp [hs]
    exact absurd (mem_digits hplus) (by simp)
  · rw [if_neg (by simp [digits_ne_nil]), readDigits_digits, Option.filter_some, if_pos (by simpa)]

/-! ## The number of digits -/

theorem lt_pow_length_digits (n : Nat) : n < Nat.pow 10 (digits n).length := by
  fun_induction digits n with
  | case1 n h => exact h
  | case2 n h ih =>
    rw [List.length_append]
    exact (Nat.div_lt_iff_lt_mul (by decide)).mp ih

theorem length_digits_le_succ (n : Nat) : (digits n).length ≤ (digits (n / 10)).length + 1 := by
  rw [digits]
  split
  · exact Nat.le_add_left 1 _
  · exact Nat.le_of_eq List.length_append

theorem length_digits_le {n k : Nat} (hk : 0 < k) (h : n < Nat.pow 10 k) :
    (digits n).length ≤ k := by
  induction k generalizing n with
  | zero => exact absurd hk (Nat.lt_irrefl 0)
  | succ k ih =>
    rcases Nat.eq_zero_or_pos k with rfl | hpos
    · have hone : n < 10 := h
      rw [digits, if_pos hone]
      exact Nat.le_refl 1
    · have htenth : n / 10 < Nat.pow 10 k := Nat.div_lt_of_lt_mul (by rwa [Nat.mul_comm])
      exact Nat.le_trans (length_digits_le_succ n) (Nat.succ_le_succ (ih hpos htenth))

/-- A number between two powers of ten has as many digits as the greater one has zeros. -/
theorem length_digits {n k : Nat} (hlow : Nat.pow 10 k ≤ n) (hhigh : n < Nat.pow 10 (k + 1)) :
    (digits n).length = k + 1 := by
  have hle := length_digits_le (Nat.succ_pos k) hhigh
  have hlt : k < (digits n).length :=
    (Nat.pow_lt_pow_iff_right (by decide)).mp (Nat.lt_of_le_of_lt hlow (lt_pow_length_digits n))
  omega

theorem length_paddedDigits {width n : Nat} (hw : 0 < width) (h : n < Nat.pow 10 width) :
    (paddedDigits width n).length = width := by
  have hle := length_digits_le hw h
  rw [paddedDigits, List.length_append, List.length_replicate]
  omega

/-! ## The value of digits -/

theorem eq_digitChar {c : Char} {d : Nat} (h : digitValue? c = some d) :
    d < 10 ∧ c = digitChar d := by
  unfold digitValue? at h
  split at h
  · next hrange =>
    have hd := Option.some.inj h
    have hzero : '0'.toNat = 0x30 := rfl
    have hnine : '9'.toNat = 0x39 := rfl
    refine ⟨by omega, ?_⟩
    have hcode : '0'.toNat + d % 10 = c.toNat := by omega
    rw [digitChar, hcode, Char.ofNat_toNat]
  · cases h

theorem mul_pow_succ (a k : Nat) : a * Nat.pow 10 (k + 1) = a * 10 * Nat.pow 10 k := by
  rw [Nat.mul_assoc, Nat.mul_comm 10]
  rfl

theorem readDigits_zeros (acc k : Nat) :
    readDigits acc (List.replicate k '0') = some (acc * Nat.pow 10 k) := by
  induction k generalizing acc with
  | zero => exact congrArg some (Nat.mul_one acc).symm
  | succ k ih =>
    calc readDigits acc (List.replicate (k + 1) '0')
        = readDigits (acc * 10 + 0) (List.replicate k '0') := rfl
      _ = some (acc * Nat.pow 10 (k + 1)) := by rw [ih, Nat.add_zero, mul_pow_succ]

/-- Each digit moves what has been read so far one place up. -/
theorem readDigits_bounds {a v : Nat} {s : List Char} (h : readDigits a s = some v) :
    a * Nat.pow 10 s.length ≤ v ∧ v < (a + 1) * Nat.pow 10 s.length := by
  induction s generalizing a with
  | nil =>
    obtain rfl := Option.some.inj h
    exact ⟨Nat.le_of_eq (Nat.mul_one a), Nat.lt_of_lt_of_eq (Nat.lt_succ_self a) (Nat.mul_one _).symm⟩
  | cons c s ih =>
    obtain ⟨d, hd, hrest⟩ := Option.bind_eq_some_iff.mp h
    obtain ⟨hlow, hhigh⟩ := ih hrest
    have hten := (eq_digitChar hd).1
    rw [List.length_cons, mul_pow_succ, mul_pow_succ]
    constructor
    · exact Nat.le_trans (Nat.mul_le_mul_right _ (Nat.le_add_right _ d)) hlow
    · exact Nat.lt_of_lt_of_le hhigh (Nat.mul_le_mul_right _ (by omega))

theorem le_of_readDigits {a v : Nat} {s : List Char} (h : readDigits a s = some v) : a ≤ v :=
  Nat.le_trans (Nat.le_mul_of_pos_right a (Nat.pow_pos (by decide))) (readDigits_bounds h).1

/-! ## Zeros in front -/

theorem mem_paddedDigits {width n : Nat} {c : Char} (h : c ∈ paddedDigits width n) :
    c ∈ "0123456789".toList := by
  rcases List.mem_append.mp h with h | h
  · rw [(List.mem_replicate.mp h).2]
    simp
  · exact mem_digits h

/-- Zeros in front do not change the number. -/
theorem readDigits_paddedDigits (width n : Nat) : readDigits 0 (paddedDigits width n) = some n := by
  rw [paddedDigits, readDigits_append, readDigits_zeros, Nat.zero_mul, Option.bind_some,
    readDigits_digits]

end OData.Text
