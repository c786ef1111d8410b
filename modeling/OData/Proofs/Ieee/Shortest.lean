import OData.Ieee.Shortest
import OData.Proofs.Ieee.Rounding
import OData.Proofs.Text.Numerals

/-!
# How far the shortest digits are from the number

The decimal that is written for a number lies in the neighbourhood that rounds to it, or is the
number itself on the finest grid. So it is **never above the upper end of the neighbourhood**, and
not zero (`shortest_spec`). A grid as fine as a quarter of the last place has a point in every
neighbourhood, so **the search stops there at the latest** (`le_place_shortest`).
-/

set_option autoImplicit false

namespace OData.Ieee

open OData.Text

/-! ## Comparing with a decimal -/

variable {x den digits : Nat} {place : Int}

theorem decimal_quotient (digits : Nat) (place : Int) :
    ((digits * Nat.pow 10 place.toNat : Nat) : ℚ) / (Nat.pow 10 (-place).toNat : Nat) =
      digits * 10 ^ place := by
  have h := scaled_quotient 10 digits 1 (by decide) place
  rwa [Nat.one_mul, Nat.cast_one, div_one] at h

theorem ten_pow_pos (k : Nat) : (0 : ℚ) < (Nat.pow 10 k : Nat) := by
  exact_mod_cast Nat.pow_pos (n := k) (show 0 < 10 by decide)

theorem le_point_iff (hden : 0 < den) :
    x * Nat.pow 10 (-place).toNat ≤ digits * Nat.pow 10 place.toNat * den ↔
      (x : ℚ) / den ≤ digits * 10 ^ place := by
  rw [← decimal_quotient, div_le_div_iff₀ (by exact_mod_cast hden) (ten_pow_pos _)]
  exact_mod_cast Iff.rfl

theorem point_le_iff (hden : 0 < den) :
    digits * Nat.pow 10 place.toNat * den ≤ x * Nat.pow 10 (-place).toNat ↔
      (digits : ℚ) * 10 ^ place ≤ (x : ℚ) / den := by
  rw [← decimal_quotient, div_le_div_iff₀ (ten_pow_pos _) (by exact_mod_cast hden)]
  exact_mod_cast Iff.rfl

/-! ## The points of a neighbourhood -/

namespace Neighbourhood

variable {n : Neighbourhood} {tie : Tie}

theorem bounds_of_holds (hden : 0 < n.den) (h : n.holds digits place = true) :
    (n.low : ℚ) / n.den ≤ digits * 10 ^ place ∧ (digits : ℚ) * 10 ^ place ≤ n.high / n.den := by
  unfold holds at h
  rw [← le_point_iff hden, ← point_le_iff hden]
  dsimp only at h
  split at h
  · simpa using h
  · obtain ⟨hlow, hhigh⟩ : _ < _ ∧ _ < _ := by simpa using h
    exact ⟨hlow.le, hhigh.le⟩

theorem holds_of_lt (hden : 0 < n.den) (hlow : (n.low : ℚ) / n.den < digits * 10 ^ place)
    (hhigh : (digits : ℚ) * 10 ^ place < n.high / n.den) : n.holds digits place = true := by
  have hlow' := not_le.mp ((point_le_iff hden).not.mpr (not_le.mpr hlow))
  have hhigh' := not_le.mp ((le_point_iff hden).not.mpr (not_le.mpr hhigh))
  unfold holds
  dsimp only
  split
  · rw [Bool.and_eq_true, decide_eq_true_iff, decide_eq_true_iff]
    exact ⟨hlow'.le, hhigh'.le⟩
  · rw [Bool.and_eq_true, decide_eq_true_iff, decide_eq_true_iff]
    exact ⟨hlow', hhigh'⟩

/-- The grid point at or below the number. -/
def below (n : Neighbourhood) (place : Int) : Nat :=
  n.centre * Nat.pow 10 (-place).toNat / (n.den * Nat.pow 10 place.toNat)

theorem below_bounds (hden : 0 < n.den) (place : Int) :
    (n.below place : ℚ) * 10 ^ place ≤ n.centre / n.den ∧
      (n.centre : ℚ) / n.den < (n.below place + 1 : Nat) * 10 ^ place := by
  have hpos : 0 < n.den * Nat.pow 10 place.toNat := Nat.mul_pos hden (Nat.pow_pos (by decide))
  rw [← not_le, ← point_le_iff hden, ← point_le_iff hden, not_le, Nat.mul_assoc, Nat.mul_assoc,
    Nat.mul_comm _ n.den]
  exact ⟨Nat.div_mul_le_self _ _, (Nat.div_lt_iff_lt_mul hpos).mp (Nat.lt_succ_self _)⟩

theorem holds_of_onGrid? (h : n.onGrid? tie place = some digits) :
    n.holds digits place = true := by
  unfold onGrid? at h
  dsimp only at h
  split at h
  · next hbelow _ => exact Option.some.inj h ▸ hbelow
  · next _ habove => exact Option.some.inj h ▸ habove
  · cases h
  · next hbelow habove =>
    split at h
    · exact Option.some.inj h ▸ hbelow
    · split at h
      · exact Option.some.inj h ▸ habove
      · cases tie with
        | awayFromZero => exact Option.some.inj h ▸ habove
        | even =>
          have hdigits := Option.some.inj h
          rcases Nat.mod_two_eq_zero_or_one (n.below place) with heven | hodd
          · rw [← hdigits]
            exact (congrArg (n.below place + ·) heven).symm ▸ hbelow
          · rw [← hdigits]
            exact (congrArg (n.below place + ·) hodd).symm ▸ habove

theorem onGrid?_ne_none (h : n.holds (n.below place) place = true) :
    n.onGrid? tie place ≠ none := by
  intro hnone
  unfold onGrid? at hnone
  dsimp only at hnone
  split at hnone
  · cases hnone
  · cases hnone
  · next hbelow _ => exact absurd (hbelow.symm.trans h) (by decide)
  · split at hnone
    · cases hnone
    · split at hnone
      · cases hnone
      · cases tie with
        | awayFromZero => cases hnone
        | even => cases hnone

/-! ## The search -/

variable {finest : Int} {steps : Nat}

/-- What the search gives is a point of the neighbourhood, or the number cut off at the finest
grid. -/
theorem search_holds (hfinest : finest ≤ 0) (h : n.search tie finest steps = (digits, place)) :
    n.holds digits place = true ∨ digits = n.below finest ∧ place = finest := by
  induction steps with
  | zero =>
    obtain ⟨hdigits, rfl⟩ := Prod.mk.inj h
    cases hgrid : n.onGrid? tie finest with
    | some found =>
      rw [hgrid, Option.getD_some] at hdigits
      exact .inl (hdigits ▸ holds_of_onGrid? hgrid)
    | none =>
      rw [hgrid, Option.getD_none] at hdigits
      refine .inr ⟨?_, rfl⟩
      rw [← hdigits, below, Int.toNat_of_nonpos hfinest]
      simp
  | succ steps ih =>
    unfold search at h
    split at h
    · next hgrid =>
      obtain ⟨rfl, rfl⟩ := Prod.mk.inj h
      exact .inl (holds_of_onGrid? hgrid)
    · exact ih h

/-- The digits found are not zero and not above the neighbourhood, where the finest grid does not
cut the number off to nothing. -/
theorem search_bounds (hden : 0 < n.den) (hlow : 0 < n.low) (hhigh : n.centre ≤ n.high)
    (hfinest : finest ≤ 0) (hunit : n.den ≤ n.centre * Nat.pow 10 (-finest).toNat)
    (h : n.search tie finest steps = (digits, place)) :
    0 < digits ∧ (digits : ℚ) * 10 ^ place ≤ n.high / n.den := by
  have hden' : (0 : ℚ) < n.den := by exact_mod_cast hden
  rcases search_holds hfinest h with hholds | ⟨rfl, rfl⟩
  · obtain ⟨hbelow, habove⟩ := bounds_of_holds hden hholds
    refine ⟨Nat.pos_of_ne_zero ?_, habove⟩
    rintro rfl
    have hpos : (0 : ℚ) < n.low / n.den := div_pos (by exact_mod_cast hlow) hden'
    rw [Nat.cast_zero, zero_mul] at hbelow
    exact absurd hpos (not_lt.mpr hbelow)
  · constructor
    · rw [below, Int.toNat_of_nonpos hfinest]
      exact Nat.div_pos (by simpa using hunit) (by simpa using hden)
    · refine (below_bounds hden place).1.trans ?_
      exact div_le_div_of_nonneg_right (by exact_mod_cast hhigh) hden'.le

theorem finest_le_search (h : n.search tie finest steps = (digits, place)) : finest ≤ place := by
  induction steps with
  | zero =>
    obtain ⟨-, rfl⟩ := Prod.mk.inj h
    exact Int.le_refl finest
  | succ steps ih =>
    unfold search at h
    split at h
    · obtain ⟨-, rfl⟩ := Prod.mk.inj h
      omega
    · exact ih h

/-- The search does not pass a grid with a hit. -/
theorem le_search {k : Nat} (hk : k ≤ steps) (hgrid : n.onGrid? tie (finest + k) ≠ none)
    (h : n.search tie finest steps = (digits, place)) : finest + k ≤ place := by
  induction steps with
  | zero =>
    rw [Nat.le_zero.mp hk]
    simpa using finest_le_search h
  | succ steps ih =>
    unfold search at h
    split at h
    · obtain ⟨-, rfl⟩ := Prod.mk.inj h
      omega
    · next hnone =>
      have hne : k ≠ steps + 1 := by
        rintro rfl
        exact hgrid hnone
      exact ih (by omega) h

end Neighbourhood

/-! ## Shortest digits -/

section Shortest

variable {mantissa : Nat} {exponent : Int} {wideBelow : Bool} {tie : Tie}

/-- A number of quarters of the last place. -/
theorem quarters_quotient (quarters : Nat) (exponent : Int) :
    ((quarters * Nat.pow 2 (exponent - 2).toNat : Nat) : ℚ) /
      (Nat.pow 2 (-(exponent - 2)).toNat : Nat) = quarters * 2 ^ (exponent - 2) := by
  have h := scaled_quotient 2 quarters 1 two_ne_zero (exponent - 2)
  rwa [Nat.one_mul, Nat.cast_one, div_one] at h

theorem neighbourhood_den_pos : 0 < (neighbourhood mantissa exponent wideBelow).den :=
  Nat.two_pow_pos _

theorem neighbourhood_centre (mantissa : Nat) (exponent : Int) (wideBelow : Bool) :
    ((neighbourhood mantissa exponent wideBelow).centre : ℚ) /
      (neighbourhood mantissa exponent wideBelow).den =
        (4 * mantissa : Nat) * 2 ^ (exponent - 2) :=
  quarters_quotient _ _

theorem neighbourhood_high (mantissa : Nat) (exponent : Int) (wideBelow : Bool) :
    ((neighbourhood mantissa exponent wideBelow).high : ℚ) /
      (neighbourhood mantissa exponent wideBelow).den =
        (4 * mantissa + 2 : Nat) * 2 ^ (exponent - 2) :=
  quarters_quotient _ _

/-- The lower end is at least a quarter of the last place below the number. -/
theorem neighbourhood_low_le :
    ((neighbourhood mantissa exponent wideBelow).low : ℚ) /
        (neighbourhood mantissa exponent wideBelow).den ≤
      (4 * mantissa - 1 : Nat) * 2 ^ (exponent - 2) := by
  refine (quarters_quotient (4 * mantissa - if wideBelow then 2 else 1) exponent).trans_le ?_
  refine mul_le_mul_of_nonneg_right (Nat.cast_le.mpr ?_) (by positivity)
  split <;> omega

/-- On the finest grid the number is not cut off to nothing. -/
theorem neighbourhood_den_le (hm : 0 < mantissa) :
    (neighbourhood mantissa exponent wideBelow).den ≤
      (neighbourhood mantissa exponent wideBelow).centre *
        Nat.pow 10 (-(min exponent 0)).toNat := by
  have hplaces : (-(exponent - 2)).toNat ≤ (-(min exponent 0)).toNat + 2 := by omega
  have hup : 0 < 2 ^ (exponent - 2).toNat := Nat.two_pow_pos _
  calc 2 ^ (-(exponent - 2)).toNat
      ≤ 2 ^ ((-(min exponent 0)).toNat + 2) := Nat.pow_le_pow_right (by decide) hplaces
    _ = 4 * 2 ^ (-(min exponent 0)).toNat := by rw [Nat.pow_add, Nat.mul_comm]
    _ ≤ 4 * 10 ^ (-(min exponent 0)).toNat :=
        Nat.mul_le_mul_left 4 (Nat.pow_le_pow_left (by decide) _)
    _ ≤ 4 * mantissa * 2 ^ (exponent - 2).toNat * 10 ^ (-(min exponent 0)).toNat :=
        Nat.mul_le_mul_right _ (by nlinarith)

/-- **The digits that are written are not zero, and never above the upper end of what rounds to
the number.** -/
theorem shortest_spec {digits : Nat} {place : Int} (hm : 0 < mantissa)
    (h : shortest tie mantissa exponent wideBelow = (digits, place)) :
    0 < digits ∧ min exponent 0 ≤ place ∧
      (digits : ℚ) * 10 ^ place ≤ (4 * mantissa + 2 : Nat) * 2 ^ (exponent - 2) := by
  have hup : 0 < 2 ^ (exponent - 2).toNat := Nat.two_pow_pos _
  have hlow : 0 < (neighbourhood mantissa exponent wideBelow).low := by
    refine Nat.mul_pos ?_ hup
    split <;> omega
  have hhigh : (neighbourhood mantissa exponent wideBelow).centre ≤
      (neighbourhood mantissa exponent wideBelow).high :=
    Nat.mul_le_mul_right _ (Nat.le_add_right _ 2)
  obtain ⟨hpos, habove⟩ := Neighbourhood.search_bounds neighbourhood_den_pos hlow hhigh
    (min_le_right _ _) (neighbourhood_den_le hm) h
  exact ⟨hpos, Neighbourhood.finest_le_search h,
    habove.trans_eq (neighbourhood_high mantissa exponent wideBelow)⟩

/-- The neighbourhood reaches a quarter of the last place down from the number, and as far up. -/
theorem neighbourhood_holds_below {k : Nat} (hm : 0 < mantissa)
    (hk : (10 : ℚ) ^ k ≤ 2 ^ (exponent - 2)) :
    (neighbourhood mantissa exponent wideBelow).holds
      ((neighbourhood mantissa exponent wideBelow).below k) k = true := by
  obtain ⟨hbelow, habove⟩ :=
    (neighbourhood mantissa exponent wideBelow).below_bounds neighbourhood_den_pos k
  rw [neighbourhood_centre, zpow_natCast] at hbelow habove
  have hquarter : ((4 * mantissa - 1 : Nat) : ℚ) = (4 * mantissa : Nat) - 1 := by
    rw [Nat.cast_sub (by omega), Nat.cast_one]
  have hunit : (0 : ℚ) < 2 ^ (exponent - 2) := by positivity
  apply Neighbourhood.holds_of_lt neighbourhood_den_pos
  · refine neighbourhood_low_le.trans_lt ?_
    rw [hquarter, zpow_natCast]
    push_cast at habove ⊢
    linarith
  · rw [zpow_natCast]
    refine hbelow.trans_lt ?_
    rw [neighbourhood_high]
    exact mul_lt_mul_of_pos_right (by exact_mod_cast Nat.lt_add_of_pos_right two_pos) hunit

/-- **A grid as fine as a quarter of the last place is not passed by.** -/
theorem le_place_shortest {k quarter digits : Nat} {place : Int} (hm : 0 < mantissa)
    (hexponent : exponent - 2 = quarter) (hk : Nat.pow 10 k ≤ Nat.pow 2 quarter)
    (h : shortest tie mantissa exponent wideBelow = (digits, place)) : (k : Int) ≤ place := by
  have hgrid : (10 : ℚ) ^ k ≤ 2 ^ (exponent - 2) := by
    have hcast := Nat.cast_le (α := ℚ) |>.mpr hk
    rw [cast_pow, cast_pow, zpow_natCast] at hcast
    rwa [hexponent]
  have hcentre : Nat.pow 10 k ≤ (neighbourhood mantissa exponent wideBelow).centre /
      (neighbourhood mantissa exponent wideBelow).den := by
    have hone : (1 : ℚ) ≤ (4 * mantissa : Nat) := Nat.one_le_cast.mpr (by omega)
    have hle : ((Nat.pow 10 k : Nat) : ℚ) ≤ (4 * mantissa : Nat) * 2 ^ (exponent - 2) := by
      rw [cast_pow, zpow_natCast]
      exact hgrid.trans (le_mul_of_one_le_left (by positivity) hone)
    rw [← neighbourhood_centre mantissa exponent wideBelow,
      le_div_iff₀ (by exact_mod_cast neighbourhood_den_pos)] at hle
    exact (Nat.le_div_iff_mul_le neighbourhood_den_pos).mpr (by exact_mod_cast hle)
  have hlength := (Nat.pow_lt_pow_iff_right (by decide)).mp
    (hcentre.trans_lt (lt_pow_length_digits _))
  have hwhole : min exponent 0 = 0 := by omega
  have hhit : (neighbourhood mantissa exponent wideBelow).onGrid? tie (min exponent 0 + k) ≠
      none := by
    rw [hwhole, Int.zero_add]
    exact Neighbourhood.onGrid?_ne_none (neighbourhood_holds_below hm hgrid)
  have hplace := Neighbourhood.le_search (by omega) hhit h
  omega

end Shortest

end OData.Ieee
