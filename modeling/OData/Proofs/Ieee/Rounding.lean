import Mathlib.Algebra.Order.Field.Power
import Mathlib.Algebra.Order.Ring.Rat
import Mathlib.Tactic.FieldSimp
import Mathlib.Tactic.Linarith
import Mathlib.Tactic.Positivity
import OData.Ieee.Format

/-!
# Rounding is monotone

`Format.round` finds the order of magnitude of a quotient, the place of the last bit that there is
room for, and the integer nearest to the quotient at that place. The pattern counts up along the
places and the integers (`Format.round_eq`), also over a place where the integer is rounded up to a
power of two. So **the greater of two quotients has the greater pattern** (`Format.round_mono`).
-/

set_option autoImplicit false

namespace OData.Ieee

theorem cast_pow (base k : Nat) : ((Nat.pow base k : Nat) : ℚ) = (base : ℚ) ^ (k : Int) := by
  rw [Nat.pow_eq, Nat.cast_pow, zpow_natCast]

/-- A power with an integer exponent, spread over numerator and denominator. -/
theorem scaled_quotient (base num den : Nat) (hbase : base ≠ 0) (e : Int) :
    ((num * Nat.pow base e.toNat : Nat) : ℚ) / (den * Nat.pow base (-e).toNat : Nat) =
      num / den * (base : ℚ) ^ e := by
  have hne : (base : ℚ) ≠ 0 := Nat.cast_ne_zero.mpr hbase
  simp only [Nat.pow_eq, Nat.cast_mul, Nat.cast_pow]
  rcases le_total 0 e with h | h
  · obtain ⟨k, rfl⟩ := Int.eq_ofNat_of_zero_le h
    simp [mul_div_right_comm]
  · obtain ⟨k, hk⟩ := Int.eq_ofNat_of_zero_le (neg_nonneg.mpr h)
    obtain rfl : e = -(k : Int) := by omega
    rw [neg_neg, Int.toNat_neg_natCast, Int.toNat_natCast, zpow_neg, zpow_natCast, pow_zero, mul_one,
      ← div_eq_mul_inv, div_div]

/-! ## The nearest integer -/

theorem le_divNearest (num den : Nat) : num / den ≤ divNearest num den := by
  unfold divNearest
  dsimp only
  split
  · exact Nat.le_refl _
  · split <;> exact Nat.le_add_right _ _

theorem divNearest_le (num den : Nat) : divNearest num den ≤ num / den + 1 := by
  unfold divNearest
  dsimp only
  split
  · exact Nat.le_add_right _ _
  · split <;> omega

theorem divNearest_one (k : Nat) : divNearest k 1 = k := by
  simp [divNearest, Nat.mod_one]

/-- A greater quotient has a greater nearest integer. -/
theorem divNearest_mono {a b c d : Nat} (hb : 0 < b) (hd : 0 < d)
    (h : (a : ℚ) / b ≤ (c : ℚ) / d) : divNearest a b ≤ divNearest c d := by
  have hcross : a * d ≤ c * b := by
    rw [div_le_div_iff₀ (by exact_mod_cast hb) (by exact_mod_cast hd)] at h
    exact_mod_cast h
  have hquot : a / b ≤ c / d := by
    rw [Nat.le_div_iff_mul_le hd]
    refine Nat.le_of_mul_le_mul_right ?_ hb
    calc a / b * d * b = a / b * b * d := Nat.mul_right_comm _ _ _
      _ ≤ a * d := Nat.mul_le_mul_right d (Nat.div_mul_le_self a b)
      _ ≤ c * b := hcross
  rcases Nat.lt_or_eq_of_le hquot with hlt | heq
  · calc divNearest a b ≤ a / b + 1 := divNearest_le a b
      _ ≤ c / d := hlt
      _ ≤ divNearest c d := le_divNearest c d
  · -- between the same two integers the remainders decide
    have hrest : a % b * d ≤ c % d * b := by
      have ha := Nat.div_add_mod a b
      have hc := Nat.div_add_mod c d
      rw [heq] at ha
      nlinarith
    unfold divNearest
    dsimp only
    rw [heq]
    by_cases hless : 2 * (a % b) < b
    · rw [if_pos hless]
      split
      · exact Nat.le_refl _
      · split <;> exact Nat.le_add_right _ _
    · have hmore : d ≤ 2 * (c % d) := by
        refine Nat.le_of_mul_le_mul_right ?_ hb
        nlinarith
      rw [if_neg hless, if_neg (Nat.not_lt.mpr hmore)]
      by_cases htie : 2 * (a % b) = b
      · rw [if_pos htie]
        split
        · exact Nat.le_refl _
        · omega
      · have hover : ¬2 * (c % d) = d := by
          intro hsame
          have : 2 * (a % b) ≤ b := by
            refine Nat.le_of_mul_le_mul_right ?_ hd
            nlinarith
          omega
        rw [if_neg htie, if_neg hover]

/-! ## The nearest integer at a place -/

theorem scaledNearest_eq (num den : Nat) (e : Int) :
    scaledNearest num den e =
      divNearest (num * Nat.pow 2 (-e).toNat) (den * Nat.pow 2 (- -e).toNat) := by
  unfold scaledNearest
  rw [neg_neg]
  split
  · next h =>
    have hnone : e.toNat = 0 := by omega
    simp [hnone]
  · next h =>
    have hnone : (-e).toNat = 0 := by omega
    simp [hnone]

variable {num den num' den' : Nat} {e : Int}

theorem scaled_den_pos (hden : 0 < den) : 0 < den * Nat.pow 2 (- -e).toNat :=
  Nat.mul_pos hden (Nat.two_pow_pos _)

theorem scaledNearest_mono (hden : 0 < den) (hden' : 0 < den')
    (h : (num : ℚ) / den ≤ (num' : ℚ) / den') :
    scaledNearest num den e ≤ scaledNearest num' den' e := by
  rw [scaledNearest_eq, scaledNearest_eq]
  apply divNearest_mono (scaled_den_pos hden) (scaled_den_pos hden')
  rw [scaled_quotient 2 _ _ two_ne_zero, scaled_quotient 2 _ _ two_ne_zero]
  exact mul_le_mul_of_nonneg_right h (by positivity)

theorem le_scaledNearest {k : Nat} (hden : 0 < den) (h : (k : ℚ) * 2 ^ e ≤ (num : ℚ) / den) :
    k ≤ scaledNearest num den e := by
  rw [scaledNearest_eq]
  refine (divNearest_one k).symm.trans_le (divNearest_mono one_pos (scaled_den_pos hden) ?_)
  rw [scaled_quotient 2 _ _ two_ne_zero, zpow_neg, Nat.cast_one, div_one, ← div_eq_mul_inv]
  exact (le_div_iff₀ (by positivity)).mpr h

theorem scaledNearest_le {k : Nat} (hden : 0 < den) (h : (num : ℚ) / den ≤ (k : ℚ) * 2 ^ e) :
    scaledNearest num den e ≤ k := by
  rw [scaledNearest_eq]
  refine (divNearest_mono (scaled_den_pos hden) one_pos ?_).trans_eq (divNearest_one k)
  rw [scaled_quotient 2 _ _ two_ne_zero, zpow_neg, Nat.cast_one, div_one, ← div_eq_mul_inv]
  exact (div_le_iff₀ (by positivity)).mpr h

/-! ## The order of magnitude -/

theorem log2_le_self {n : Nat} (h : 0 < n) : (2 : ℚ) ^ (n.log2 : Int) ≤ n := by
  rw [zpow_natCast]
  exact_mod_cast Nat.log2_self_le (Nat.ne_of_gt h)

theorem lt_log2_succ (n : Nat) : (n : ℚ) < 2 ^ ((n.log2 : Int) + 1) := by
  have h : n < 2 ^ (n.log2 + 1) := Nat.lt_log2_self
  exact_mod_cast h

/-- The test by which the order is found tells whether the power is reached. -/
theorem reached_iff (hden : 0 < den) :
    (if e < 0 then decide (den ≤ num * Nat.pow 2 (-e).toNat)
      else decide (den * Nat.pow 2 e.toNat ≤ num)) = true ↔ (2 : ℚ) ^ e ≤ (num : ℚ) / den := by
  have hpos : (0 : ℚ) < den := by exact_mod_cast hden
  rw [le_div_iff₀ hpos]
  split
  · next h =>
    obtain ⟨k, hk⟩ := Int.eq_ofNat_of_zero_le (neg_nonneg.mpr h.le)
    obtain rfl : e = -(k : Int) := by omega
    rw [decide_eq_true_iff, neg_neg, Int.toNat_natCast, zpow_neg, zpow_natCast,
      inv_mul_le_iff₀ (by positivity), mul_comm, Nat.pow_eq]
    exact_mod_cast Iff.rfl
  · next h =>
    obtain ⟨k, rfl⟩ := Int.eq_ofNat_of_zero_le (not_lt.mp h)
    rw [decide_eq_true_iff, Int.toNat_natCast, zpow_natCast, mul_comm, Nat.pow_eq]
    exact_mod_cast Iff.rfl

/-- **The order of a quotient is its binary order of magnitude.** -/
theorem binaryOrder_spec (hnum : 0 < num) (hden : 0 < den) :
    (2 : ℚ) ^ binaryOrder num den ≤ (num : ℚ) / den ∧
      (num : ℚ) / den < 2 ^ (binaryOrder num den + 1) := by
  have hpos : (0 : ℚ) < den := by exact_mod_cast hden
  have hlow : (2 : ℚ) ^ ((num.log2 : Int) - den.log2 - 1) ≤ (num : ℚ) / den := by
    rw [le_div_iff₀ hpos]
    calc (2 : ℚ) ^ ((num.log2 : Int) - den.log2 - 1) * den
        ≤ 2 ^ ((num.log2 : Int) - den.log2 - 1) * 2 ^ ((den.log2 : Int) + 1) :=
          mul_le_mul_of_nonneg_left (lt_log2_succ den).le (by positivity)
      _ = 2 ^ (num.log2 : Int) := by
          rw [← zpow_add₀ two_ne_zero]
          congr 1
          omega
      _ ≤ num := log2_le_self hnum
  have hhigh : (num : ℚ) / den < 2 ^ ((num.log2 : Int) - den.log2 + 1) := by
    rw [div_lt_iff₀ hpos]
    calc (num : ℚ) < 2 ^ ((num.log2 : Int) + 1) := lt_log2_succ num
      _ = 2 ^ ((num.log2 : Int) - den.log2 + 1) * 2 ^ (den.log2 : Int) := by
          rw [← zpow_add₀ two_ne_zero]
          congr 1
          omega
      _ ≤ 2 ^ ((num.log2 : Int) - den.log2 + 1) * den :=
          mul_le_mul_of_nonneg_left (log2_le_self hden) (by positivity)
  unfold binaryOrder
  dsimp only
  by_cases hreached : (2 : ℚ) ^ ((num.log2 : Int) - den.log2) ≤ (num : ℚ) / den
  · rw [if_pos ((reached_iff hden).mpr hreached)]
    exact ⟨hreached, hhigh⟩
  · rw [if_neg fun h => hreached ((reached_iff hden).mp h), Int.sub_add_cancel]
    exact ⟨hlow, not_le.mp hreached⟩

theorem binaryOrder_mono (hnum : 0 < num) (hden : 0 < den) (hnum' : 0 < num') (hden' : 0 < den')
    (h : (num : ℚ) / den ≤ (num' : ℚ) / den') : binaryOrder num den ≤ binaryOrder num' den' := by
  have hlow := (binaryOrder_spec hnum hden).1
  have hhigh := (binaryOrder_spec hnum' hden').2
  exact Int.lt_add_one_iff.mp
    ((zpow_lt_zpow_iff_right₀ one_lt_two).mp (hlow.trans_lt (h.trans_lt hhigh)))

/-! ## Patterns -/

namespace Format

variable (f : Format)

/-- The place of the last bit that a number of this magnitude has room for. -/
def lastPlace (num den : Nat) : Int := max (binaryOrder num den - f.fractionBits) f.leastExponent

/-- Above the least place, the integer has all its bits. -/
theorem implied_le_scaledNearest (hnum : 0 < num) (hden : 0 < den)
    (h : f.leastExponent < f.lastPlace num den) :
    Nat.pow 2 f.fractionBits ≤ scaledNearest num den (f.lastPlace num den) := by
  have hplace : f.lastPlace num den = binaryOrder num den - f.fractionBits := by
    unfold lastPlace at h ⊢
    omega
  apply le_scaledNearest hden
  rw [hplace, cast_pow, Nat.cast_ofNat, ← zpow_add₀ two_ne_zero, add_sub_cancel]
  exact (binaryOrder_spec hnum hden).1

/-- The integer has at most one bit more, and only as the power of two that it is rounded up to. -/
theorem scaledNearest_le_twice_implied (hnum : 0 < num) (hden : 0 < den) :
    scaledNearest num den (f.lastPlace num den) ≤ Nat.pow 2 (f.fractionBits + 1) := by
  apply scaledNearest_le hden
  refine (binaryOrder_spec hnum hden).2.le.trans ?_
  rw [cast_pow, Nat.cast_ofNat, ← zpow_add₀ two_ne_zero]
  refine zpow_le_zpow_right₀ one_le_two ?_
  unfold lastPlace
  push_cast
  omega

/-- **The pattern counts up along the places and the integers.** -/
theorem round_eq (hnum : 0 < num) (hden : 0 < den) :
    f.round num den =
      min ((f.lastPlace num den - f.leastExponent).toNat * Nat.pow 2 f.fractionBits +
        scaledNearest num den (f.lastPlace num den)) f.infinityBits := by
  unfold round
  rw [if_neg (Nat.ne_of_gt hnum)]
  show min (if scaledNearest num den (f.lastPlace num den) < Nat.pow 2 f.fractionBits then _
    else _) f.infinityBits = _
  congr 1
  split
  · next h =>
    have hleast : f.lastPlace num den - f.leastExponent ≤ 0 := by
      by_contra hmore
      exact Nat.not_lt.mpr (f.implied_le_scaledNearest hnum hden (by omega)) h
    rw [Int.toNat_of_nonpos hleast, Nat.zero_mul, Nat.zero_add]
    rfl
  · next h =>
    have hfull := Nat.not_lt.mp h
    rw [Nat.add_mul, Nat.one_mul, Nat.add_assoc]
    exact congrArg _ (Nat.add_sub_cancel' hfull)

/-- **The greater of two quotients has the greater pattern.** -/
theorem round_mono (hden : 0 < den) (hden' : 0 < den')
    (h : (num : ℚ) / den ≤ (num' : ℚ) / den') : f.round num den ≤ f.round num' den' := by
  rcases Nat.eq_zero_or_pos num with rfl | hnum
  · exact Nat.zero_le _
  have hnum' : 0 < num' := by
    rcases Nat.eq_zero_or_pos num' with rfl | hpos
    · have : (0 : ℚ) < (num : ℚ) / den := by positivity
      simp only [Nat.cast_zero, zero_div] at h
      exact absurd this (not_lt.mpr h)
    · exact hpos
  have horder := binaryOrder_mono hnum hden hnum' hden' h
  rw [f.round_eq hnum hden, f.round_eq hnum' hden']
  refine min_le_min_right _ ?_
  rcases eq_or_ne (f.lastPlace num den) (f.lastPlace num' den') with heq | hne
  · rw [heq]
    exact Nat.add_le_add_left (scaledNearest_mono hden hden' h) _
  · have hleast : f.leastExponent ≤ f.lastPlace num den := le_max_right _ _
    have hplace : f.lastPlace num den < f.lastPlace num' den' := by
      unfold lastPlace at hne ⊢
      omega
    have hfull := f.implied_le_scaledNearest hnum' hden' (hleast.trans_lt hplace)
    have hroom := f.scaledNearest_le_twice_implied hnum hden
    have hsteps : (f.lastPlace num den - f.leastExponent).toNat + 1 ≤
        (f.lastPlace num' den' - f.leastExponent).toNat := by omega
    have htwice : Nat.pow 2 (f.fractionBits + 1) = 2 * Nat.pow 2 f.fractionBits := Nat.pow_succ'
    nlinarith

end Format

end OData.Ieee
