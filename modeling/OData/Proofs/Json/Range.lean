import OData.Json.Numeral
import OData.Proofs.Ieee.Shortest

/-!
# The range of the numbers that are read

The reader makes a number from a significand, rounded to a double, and a power of ten, rounded too,
and refuses it if the product leaves the range of doubles. The product grows with its factors
(`product_mono`), so the greatest significand for each power of ten decides. **A part of the digits
that a double is written with stays in the range** (`le_greatestWritten`, `exists_scaleByTen`), the
greatest double included.
-/

set_option autoImplicit false

namespace OData.Json

open OData.Ieee OData.Text

/-! ## Magnitudes -/

section Magnitudes

variable {bits mantissa : Nat} {negative wideBelow : Bool} {exponent : Int}

/-- The patterns of finite numbers count up along the places and the integers. -/
theorem place_of_decode (h : double.decode bits = .finite negative mantissa exponent wideBelow) :
    ∃ place : Nat, exponent = (place : Int) - 1074 ∧ place ≤ 2045 ∧
      bits % 0x8000000000000000 = place * 0x10000000000000 + mantissa ∧
      mantissa < 0x20000000000000 ∧ (0 < place → 0x10000000000000 ≤ mantissa) := by
  have hfraction : bits % Nat.pow 2 double.fractionBits = bits % 0x10000000000000 := rfl
  have hfield : bits / Nat.pow 2 double.fractionBits % Nat.pow 2 double.exponentBits =
    bits / 0x10000000000000 % 0x800 := rfl
  have htop : double.topExponent = 0x7FF := rfl
  have hleast : double.leastExponent = -1074 := rfl
  have hone : Nat.pow 2 double.fractionBits = 0x10000000000000 := rfl
  unfold Format.decode at h
  dsimp only at h
  rw [hfraction, hfield, htop, hleast, hone] at h
  split at h
  · split at h
    · cases h
    · cases h
  · split at h
    · next hzero =>
      obtain ⟨-, rfl, rfl, -⟩ := Value.finite.inj h
      exact ⟨0, by omega, by omega, by omega, by omega, by omega⟩
    · next htop hzero =>
      obtain ⟨-, rfl, rfl, -⟩ := Value.finite.inj h
      exact ⟨bits / 0x10000000000000 % 0x800 - 1, by omega, by omega, by omega, by omega, by omega⟩

theorem decode_of_lt (h : bits < double.infinityBits) :
    ∃ negative mantissa exponent wideBelow,
      double.decode bits = .finite negative mantissa exponent wideBelow := by
  have hinfinity : double.infinityBits = 0x7FF0000000000000 := rfl
  have hfield : bits / Nat.pow 2 double.fractionBits % Nat.pow 2 double.exponentBits =
    bits / 0x10000000000000 % 0x800 := rfl
  have htop : double.topExponent = 0x7FF := rfl
  unfold Format.decode
  dsimp only
  rw [hfield, htop, if_neg (by omega)]
  split
  · exact ⟨_, _, _, _, rfl⟩
  · exact ⟨_, _, _, _, rfl⟩

theorem magnitudeParts_of_lt (h : bits < double.infinityBits) :
    ∃ place mantissa : Nat, magnitudeParts bits = (mantissa, (place : Int) - 1074) ∧
      bits = place * 0x10000000000000 + mantissa ∧ mantissa < 0x20000000000000 ∧
      (0 < place → 0x10000000000000 ≤ mantissa) := by
  have hinfinity : double.infinityBits = 0x7FF0000000000000 := rfl
  obtain ⟨_, mantissa, exponent, _, hdecode⟩ := decode_of_lt h
  obtain ⟨place, rfl, -, hbits, hmantissa, hfull⟩ := place_of_decode hdecode
  refine ⟨place, mantissa, ?_, by omega, hmantissa, hfull⟩
  rw [magnitudeParts, hdecode]

/-- The number that a pattern below infinity denotes. -/
def magnitude (bits : Nat) : ℚ := (magnitudeParts bits).1 * 2 ^ (magnitudeParts bits).2

theorem magnitude_nonneg (bits : Nat) : 0 ≤ magnitude bits := by
  unfold magnitude
  positivity

theorem magnitude_mono {a b : Nat} (h : a ≤ b) (hb : b < double.infinityBits) :
    magnitude a ≤ magnitude b := by
  obtain ⟨p, m, hpartsA, hbitsA, hm, hfullA⟩ := magnitudeParts_of_lt (h.trans_lt hb)
  obtain ⟨q, n, hpartsB, hbitsB, hn, hfullB⟩ := magnitudeParts_of_lt hb
  unfold magnitude
  rw [hpartsA, hpartsB]
  rcases Nat.lt_trichotomy p q with hlt | rfl | hgt
  · -- at a lower place, even twice the implied bit is not more
    have hfull := hfullB (by omega)
    have hle : (m : ℚ) ≤ n * 2 := by exact_mod_cast (by omega : m ≤ n * 2)
    calc (m : ℚ) * 2 ^ ((p : Int) - 1074)
        ≤ n * 2 * 2 ^ ((p : Int) - 1074) := mul_le_mul_of_nonneg_right hle (by positivity)
      _ = n * 2 ^ ((p : Int) - 1074 + 1) := by
          rw [zpow_add_one₀ two_ne_zero, mul_assoc, mul_comm (2 : ℚ)]
      _ ≤ n * 2 ^ ((q : Int) - 1074) :=
          mul_le_mul_of_nonneg_left (zpow_le_zpow_right₀ one_le_two (by omega)) (by positivity)
  · have hle : (m : ℚ) ≤ n := by exact_mod_cast (by omega : m ≤ n)
    exact mul_le_mul_of_nonneg_right hle (by positivity)
  · have hfull := hfullA (by omega)
    omega

end Magnitudes

/-! ## Multiplying with a power of ten -/

theorem product_eq (a b : Nat) :
    product a b = roundScaled ((magnitudeParts a).1 * (magnitudeParts b).1) 1
      ((magnitudeParts a).2 + (magnitudeParts b).2) := rfl

/-- Greater factors give a greater product. -/
theorem product_mono {a b c d : Nat} (hab : a ≤ b) (hb : b < double.infinityBits) (hcd : c ≤ d)
    (hd : d < double.infinityBits) : product a c ≤ product b d := by
  have hquotient : ∀ x y, (((magnitudeParts x).1 * (magnitudeParts y).1 *
      Nat.pow 2 ((magnitudeParts x).2 + (magnitudeParts y).2).toNat : Nat) : ℚ) /
      (1 * Nat.pow 2 (-((magnitudeParts x).2 + (magnitudeParts y).2)).toNat : Nat) =
        magnitude x * magnitude y := by
    intro x y
    rw [scaled_quotient 2 _ 1 two_ne_zero, magnitude, magnitude, Nat.cast_mul, Nat.cast_one, div_one,
      Nat.cast_ofNat, zpow_add₀ two_ne_zero, mul_mul_mul_comm]
  have hden : ∀ e : Int, 0 < 1 * Nat.pow 2 (-e).toNat := by
    intro e
    exact Nat.mul_pos one_pos (Nat.two_pow_pos _)
  rw [product_eq, product_eq, roundScaled, roundScaled]
  apply double.round_mono (hden _) (hden _)
  rw [hquotient, hquotient]
  exact mul_le_mul (magnitude_mono hab hb) (magnitude_mono hcd hd) (magnitude_nonneg c)
    (magnitude_nonneg b)

theorem round_le_round {a b : Nat} (h : a ≤ b) : double.round a 1 ≤ double.round b 1 := by
  apply double.round_mono one_pos one_pos
  rw [Nat.cast_one, div_one, div_one]
  exact Nat.cast_le.mpr h

theorem powerOfTen_mono {k l : Nat} (h : k ≤ l) : powerOfTen k ≤ powerOfTen l :=
  round_le_round (Nat.pow_le_pow_right (by decide) h)

/-- The greatest number that is written with this power of ten behind some of its digits. From
`10 ^ 291` on that is the greatest double as it is written. -/
def greatestWritten (power : Nat) : Nat :=
  if power < 291 then Nat.pow 2 1023 else 17976931348623157 * Nat.pow 10 292

/-- A significand of 64 bits stays in the range with powers of ten up to `10 ^ 288`. -/
theorem product_inRange_of_low {significand power : Nat} (h : significand < UInt64.size)
    (hpower : power ≤ 288) :
    product (double.round significand 1) (powerOfTen power) < double.infinityBits := by
  have hrange : double.round UInt64.size 1 < double.infinityBits ∧
      powerOfTen 288 < double.infinityBits ∧
      product (double.round UInt64.size 1) (powerOfTen 288) < double.infinityBits := by
    decide +kernel
  obtain ⟨hsize, hten, hproduct⟩ := hrange
  have hle := product_mono (round_le_round (Nat.le_of_lt h)) hsize (powerOfTen_mono hpower) hten
  exact hle.trans_lt hproduct

/-- With greater powers of ten, the reader's rounding does not lead the greatest significands out of
the range either. -/
theorem product_inRange_of_high : ∀ k < 20,
    double.round (greatestWritten (289 + k) / Nat.pow 10 (289 + k)) 1 < double.infinityBits ∧
      powerOfTen (289 + k) < double.infinityBits ∧
      product (double.round (greatestWritten (289 + k) / Nat.pow 10 (289 + k)) 1)
        (powerOfTen (289 + k)) < double.infinityBits := by
  decide +kernel

theorem greatestWritten_mono {k power : Nat} (h : k ≤ power) :
    greatestWritten k ≤ greatestWritten power := by
  unfold greatestWritten
  split
  · split
    · exact Nat.le_refl _
    · decide +kernel
  · rw [if_neg (by omega)]

theorem greatestWritten_lt {power : Nat} (h : 309 ≤ power) :
    greatestWritten power < Nat.pow 10 power := by
  have hdigits : ∀ k l, 17 + k ≤ l → 17976931348623157 * Nat.pow 10 k < Nat.pow 10 l := by
    intro k l hkl
    calc 17976931348623157 * Nat.pow 10 k
        < Nat.pow 10 17 * Nat.pow 10 k :=
          Nat.mul_lt_mul_of_pos_right (by decide) (Nat.pow_pos (by decide))
      _ = Nat.pow 10 (17 + k) := (Nat.pow_add 10 17 k).symm
      _ ≤ Nat.pow 10 l := Nat.pow_le_pow_right (by decide) hkl
  rw [greatestWritten, if_neg (by omega)]
  exact hdigits 292 power (by omega)

/-- Divided by a power of ten, a number stays in the range. -/
theorem exists_scaleByTen_of_neg (bits : Nat) {power : Int} (h : power < 0) :
    ∃ scaled, scaleByTen bits power = some scaled := by
  fun_induction scaleByTen bits power with
  | case1 => omega
  | case2 => omega
  | case3 => exact ⟨_, rfl⟩
  | case4 => exact ⟨_, rfl⟩
  | case5 => omega
  | case6 bits power hfar hzero hneg ih => exact ih (by omega)

theorem product_inRange {significand power : Nat} (hsize : significand < UInt64.size)
    (hpower : power ≤ 308) (h : significand * Nat.pow 10 power ≤ greatestWritten power) :
    product (double.round significand 1) (powerOfTen power) < double.infinityBits := by
  rcases Nat.lt_or_ge 288 power with hhigh | hlow
  · obtain ⟨k, rfl⟩ := Nat.exists_eq_add_of_le hhigh
    obtain ⟨hfactor, hten, hproduct⟩ := product_inRange_of_high k (by omega)
    have hle : significand ≤ greatestWritten (289 + k) / Nat.pow 10 (289 + k) :=
      (Nat.le_div_iff_mul_le (Nat.pow_pos (by decide))).mpr h
    exact (product_mono (round_le_round hle) hfactor le_rfl hten).trans_lt hproduct
  · exact product_inRange_of_low hsize hlow

/-- **A significand and a power of ten that stand for a number that is written are read.** -/
theorem exists_scaleByTen {significand : Nat} {power : Int} (hsize : significand < UInt64.size)
    (h : 0 ≤ power → significand * Nat.pow 10 power.toNat ≤ greatestWritten power.toNat) :
    ∃ scaled, scaleByTen (double.round significand 1) power = some scaled := by
  rcases Int.lt_or_le power 0 with hneg | hpos
  · exact exists_scaleByTen_of_neg _ hneg
  obtain ⟨k, rfl⟩ := Int.eq_ofNat_of_zero_le hpos
  have hle := h hpos
  rw [Int.toNat_natCast] at hle
  rw [scaleByTen, Int.natAbs_natCast]
  by_cases hk : k ≤ 308
  · rw [if_pos hk, if_pos hpos]
    dsimp only
    rw [if_pos (product_inRange hsize hk hle)]
    exact ⟨_, rfl⟩
  · have hzero : double.round 0 1 = 0 := if_pos rfl
    have hnone : significand = 0 := by
      by_contra hsome
      have hmore := Nat.le_mul_of_pos_left (Nat.pow 10 k) (Nat.pos_of_ne_zero hsome)
      exact Nat.not_lt.mpr (hmore.trans hle) (greatestWritten_lt (by omega))
    rw [hnone, if_neg hk, if_pos hzero]
    exact ⟨0, rfl⟩

/-! ## The digits of a double -/

section Digits

variable {bits mantissa digits : Nat} {negative wideBelow : Bool} {exponent place : Int}

/-- The greatest double in digits. -/
theorem shortest_greatest (wideBelow : Bool) :
    shortest .even 0x1FFFFFFFFFFFFF 971 wideBelow = (17976931348623157, 292) := by
  have hcentre : Nat.pow 10 308 ≤ (neighbourhood 0x1FFFFFFFFFFFFF 971 wideBelow).centre /
        (neighbourhood 0x1FFFFFFFFFFFFF 971 wideBelow).den ∧
      (neighbourhood 0x1FFFFFFFFFFFFF 971 wideBelow).centre /
        (neighbourhood 0x1FFFFFFFFFFFFF 971 wideBelow).den < Nat.pow 10 (308 + 1) := by
    cases wideBelow with
    | _ => decide +kernel
  unfold shortest
  dsimp only
  generalize (neighbourhood 0x1FFFFFFFFFFFFF 971 wideBelow).centre /
    (neighbourhood 0x1FFFFFFFFFFFFF 971 wideBelow).den = n at hcentre ⊢
  have hlength : (digits n).length = 308 + 1 := by
    generalize 308 = k at hcentre ⊢
    exact length_digits hcentre.1 hcentre.2
  rw [hlength]
  cases wideBelow with
  | _ => decide +kernel

/-- The neighbourhood of a double that is not the greatest ends in the range. -/
theorem high_le_greatestWritten {k : Nat} (h : mantissa < 0x1FFFFFFFFFFFFF)
    (hrange : 0x7FFFFFFFFFFFFA * Nat.pow 2 k ≤ greatestWritten 291) :
    ((4 * mantissa + 2 : Nat) : ℚ) * 2 ^ (k : Int) ≤ (greatestWritten 291 : Nat) := by
  have hle : (4 * mantissa + 2) * Nat.pow 2 k ≤ greatestWritten 291 :=
    (Nat.mul_le_mul_right _ (by omega)).trans hrange
  have hcast := Nat.cast_le (α := ℚ) |>.mpr hle
  rwa [Nat.cast_mul, cast_pow, Nat.cast_ofNat] at hcast

theorem cast_greatestWritten_zero {k : Nat} (h : k = 1023) :
    (2 : ℚ) ^ (k : Int) = (greatestWritten 0 : Nat) := by
  rw [greatestWritten, if_pos (by decide), ← h, cast_pow, Nat.cast_ofNat]

theorem cast_greatestWritten_top {k : Nat} (h : k = 292) :
    ((17976931348623157 : Nat) : ℚ) * 10 ^ (k : Int) = (greatestWritten 291 : Nat) := by
  rw [greatestWritten, if_neg (by decide), ← h, Nat.cast_mul, cast_pow, Nat.cast_ofNat,
    Nat.cast_ofNat]

/-- The digits of a number stay in the lower half of the range, or come from its highest place, and
then their own place is `10 ^ 291` at the lowest. -/
theorem shortest_inRange
    (hdecode : double.decode bits = .finite negative mantissa exponent wideBelow)
    (hm : 0 < mantissa) (h : shortest .even mantissa exponent wideBelow = (digits, place)) :
    ∃ k : Nat, (k = 0 ∨ (k : Int) ≤ place) ∧
      (digits : ℚ) * 10 ^ place ≤ (greatestWritten k : Nat) := by
  obtain ⟨p, rfl, hp, -, hmantissa, -⟩ := place_of_decode hdecode
  have hhigh := (shortest_spec hm h).2.2
  rcases Nat.lt_or_ge p 2045 with hlow | htop
  · refine ⟨0, .inl rfl, hhigh.trans ?_⟩
    have hquarters : ((4 * mantissa + 2 : Nat) : ℚ) ≤ (Nat.pow 2 55 : Nat) :=
      Nat.cast_le.mpr (by show _ ≤ 0x80000000000000; omega)
    rw [cast_pow] at hquarters
    calc ((4 * mantissa + 2 : Nat) : ℚ) * 2 ^ ((p : Int) - 1074 - 2)
        ≤ 2 ^ (55 : Int) * 2 ^ ((p : Int) - 1074 - 2) :=
          mul_le_mul_of_nonneg_right hquarters (by positivity)
      _ = 2 ^ ((p : Int) - 1021) := by
          rw [← zpow_add₀ two_ne_zero]
          congr 1
          omega
      _ ≤ 2 ^ ((1023 : Nat) : Int) := zpow_le_zpow_right₀ one_le_two (by omega)
      _ = (greatestWritten 0 : Nat) := cast_greatestWritten_zero rfl
  · obtain rfl : p = 2045 := by omega
    have hexponent : ((2045 : Nat) : Int) - 1074 - 2 = (969 : Nat) := rfl
    refine ⟨291, .inr (le_place_shortest hm hexponent (by decide +kernel) h), ?_⟩
    rcases Nat.lt_or_ge mantissa 0x1FFFFFFFFFFFFF with hless | hgreatest
    · rw [hexponent] at hhigh
      exact hhigh.trans (high_le_greatestWritten hless (by decide +kernel))
    · obtain rfl : mantissa = 0x1FFFFFFFFFFFFF := by omega
      obtain ⟨rfl, rfl⟩ := Prod.mk.inj (h.symm.trans (shortest_greatest wideBelow))
      exact (cast_greatestWritten_top (k := 292) rfl).le

/-- **What some of the digits stand for is within the range.** -/
theorem le_greatestWritten
    (hdecode : double.decode bits = .finite negative mantissa exponent wideBelow)
    (hm : 0 < mantissa) (h : shortest .even mantissa exponent wideBelow = (digits, place))
    {significand dropped : Nat} (hle : significand * Nat.pow 10 dropped ≤ digits)
    (hpos : 0 ≤ place + dropped) :
    significand * Nat.pow 10 (place + dropped).toNat ≤ greatestWritten (place + dropped).toNat := by
  obtain ⟨k, hk, hrange⟩ := shortest_inRange hdecode hm h
  have hdigits : (significand : ℚ) * 10 ^ (place + dropped) ≤ (greatestWritten k : Nat) := by
    calc (significand : ℚ) * 10 ^ (place + dropped)
        = (significand * Nat.pow 10 dropped : Nat) * 10 ^ place := by
          rw [Nat.cast_mul, cast_pow, Nat.cast_ofNat, add_comm place, zpow_add₀ (by norm_num),
            mul_assoc]
      _ ≤ digits * 10 ^ place :=
          mul_le_mul_of_nonneg_right (Nat.cast_le.mpr hle) (by positivity)
      _ ≤ (greatestWritten k : Nat) := hrange
  have hmono : greatestWritten k ≤ greatestWritten (place + dropped).toNat :=
    greatestWritten_mono (by omega)
  refine Nat.le_trans ?_ hmono
  apply Nat.cast_le (α := ℚ).mp
  rw [Nat.cast_mul, cast_pow, Int.toNat_of_nonneg hpos]
  exact hdigits

end Digits

end OData.Json
