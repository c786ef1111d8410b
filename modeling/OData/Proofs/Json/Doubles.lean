import OData.Json.Printer
import OData.Proofs.Json.Fractions
import OData.Proofs.Json.Range

/-!
# Doubles that are written are read back as numbers

A double is written with a point, an exponent or both. With a point only, the number that is read is
the significand divided by a power of ten, which is in the range; with an exponent it is in the range
because the digits stand for no more than the double. So **every finite double is read back as a
number** (`readsAsNumber_doubleChars`), if not always as the same one.
-/

set_option autoImplicit false

namespace OData.Json

open OData.Ieee OData.Text

namespace Numeral

variable {negative : Bool} {d v w : Nat} {r s : List Char} {n : Numeral}
  {places dropped value : Nat}

theorem stands_whole (negative : Bool) (hw : w < UInt64.size) :
    ({ stage := .whole, negative := negative, significand := w } : Numeral).Stands 0 0 w :=
  ⟨rfl, hw, Nat.le_of_eq (Nat.mul_one w), .inl rfl, rfl, rfl, rfl⟩

theorem stands_zero (negative : Bool) :
    ({ stage := .zero, negative := negative } : Numeral).Stands 0 0 0 :=
  have hsize : 0 < UInt64.size := by decide
  ⟨rfl, hsize, Nat.le_refl 0, .inl rfl, rfl, rfl, rfl⟩

/-! ## What has been read is a number -/

theorem exists_value? (hstage : n.stage = .fraction ∨ n.stage = .power)
    (hvanished : n.vanished = false) {power : Int}
    (hpower : (if n.powerNegative then n.scale - n.power else n.scale + n.power) = power)
    (hscaled : ∃ scaled, scaleByTen (double.round n.significand 1) power = some scaled) :
    n.isComplete = true ∧ ∃ e, n.value? = some (.number e) := by
  obtain ⟨scaled, hscaled⟩ := hscaled
  have hdouble : n.toDouble? = some (Double.ofMagnitude n.negative scaled) := by
    rw [toDouble?, if_neg (by simp [hvanished])]
    dsimp only
    rw [hpower, hscaled]
    rfl
  have hwhole : (n.isWhole && !n.wholeFull) = false := by
    rcases hstage with hstage | hstage
    · rw [isWhole, hstage]
      rfl
    · rw [isWhole, hstage]
      rfl
  constructor
  · rcases hstage with hstage | hstage
    · rw [isComplete, hstage]
    · rw [isComplete, hstage]
  · refine ⟨Double.ofMagnitude n.negative scaled, ?_⟩
    rw [value?, if_neg (by simp [hwhole]), hdouble]
    rfl

/-- Behind a point and without an exponent, the significand is divided by a power of ten. -/
theorem Stands.exists_value? (h : n.Stands places dropped value) (hstage : n.stage = .fraction)
    (hless : dropped < places) : n.isComplete = true ∧ ∃ e, n.value? = some (.number e) := by
  obtain ⟨hsign, hpower, hvanished⟩ := h.bare
  have htotal : (if n.powerNegative then n.scale - n.power else n.scale + n.power) = n.scale := by
    rw [hsign, hpower]
    simp
  have hneg : n.scale < 0 := by
    rw [h.scale]
    omega
  exact Numeral.exists_value? (.inl hstage) hvanished htotal (exists_scaleByTen_of_neg _ hneg)

end Numeral

/-- A text that is read to its end, as a number that is not kept as an integer. -/
def ReadsAsNumber (s : List Char) : Prop :=
  ∃ n e, Numeral.read? true s = some n ∧ n.isComplete = true ∧ n.value? = some (.number e)

section Texts

open Numeral

variable {negative : Bool} {d v w : Nat} {r s : List Char}

/-! ## With a point only -/

/-- Up to 16 digits before the point leave room for one behind it. -/
theorem room_of_length (hd : d < 10) (hr : readDigits d r = some w) (hlength : r.length ≤ 15) :
    w * 10 + 9 < UInt64.size := by
  have hsize : UInt64.size = 18446744073709551616 := rfl
  have hten : Nat.pow 10 15 = 1000000000000000 := rfl
  have hpow : Nat.pow 10 r.length ≤ Nat.pow 10 15 := Nat.pow_le_pow_right (by decide) hlength
  have hless : w < 10 * Nat.pow 10 15 :=
    (readDigits_bounds hr).2.trans_le (Nat.mul_le_mul (by omega) hpow)
  omega

theorem readsAsNumber_zeroPointed (negative : Bool) (hne : s ≠ []) (hs : readDigits 0 s = some v) :
    ReadsAsNumber (signChars negative ++ '0' :: '.' :: s) := by
  obtain ⟨n, dropped, hfeed, hstage, hstands, hless⟩ :=
    feed?_point true (stands_zero negative) (.inl rfl) rfl (by decide) hne hs
  obtain ⟨hcomplete, e, hvalue⟩ := hstands.exists_value? hstage hless
  exact ⟨n, e, (read?_zero negative _).trans hfeed, hcomplete, hvalue⟩

theorem readsAsNumber_pointed (negative : Bool) (hpos : 0 < d) (hd : d < 10)
    (hr : readDigits d r = some w) (hlength : r.length ≤ 15) (hne : s ≠ [])
    (hs : readDigits w s = some v) :
    ReadsAsNumber (signChars negative ++ (digitChar d :: r ++ '.' :: s)) := by
  have hroom := room_of_length hd hr hlength
  have hw : w < UInt64.size := by omega
  obtain ⟨n, dropped, hfeed, hstage, hstands, hless⟩ :=
    feed?_point true (stands_whole negative hw) (.inr rfl) rfl hroom hne hs
  obtain ⟨hcomplete, e, hvalue⟩ := hstands.exists_value? hstage hless
  refine ⟨n, e, ?_, hcomplete, hvalue⟩
  rw [List.cons_append, read?_first negative hpos hd, feed?_append, feed?_whole rfl rfl hr hw]
  exact hfeed

/-- **A number that is written with a point only is read.** -/
theorem readsAsNumber_positional (negative : Bool) {digits : Nat} (hpos : 0 < digits)
    {position : Int} (hposition : position ≤ 16) :
    ReadsAsNumber (signChars negative ++ positional (Text.digits digits) position) := by
  obtain ⟨d, r, hds, hd, hfirst, hr⟩ := digits_eq_cons digits
  have hfirst := hfirst hpos
  unfold positional
  split
  · -- nothing before the point
    rw [List.cons_append, List.cons_append]
    apply readsAsNumber_zeroPointed negative (v := digits)
    · simp [digits_ne_nil]
    · rw [readDigits_append, readDigits_zeros, Option.bind_some, Nat.zero_mul, readDigits_digits]
  · next hsome =>
    obtain ⟨k, hk⟩ : ∃ k, position.toNat = k + 1 := ⟨position.toNat - 1, by omega⟩
    dsimp only
    rw [hds, hk]
    split
    · next hall =>
      -- all digits before the point, and zeros where there are too few
      rw [List.length_cons] at hall
      have hzeros := readDigits_zeros digits (k + 1 - (digitChar d :: r).length)
      have hwhole : readDigits d (r ++ List.replicate (k + 1 - (digitChar d :: r).length) '0') =
          some (digits * Nat.pow 10 (k + 1 - (digitChar d :: r).length)) := by
        rw [readDigits_append, hr, Option.bind_some, hzeros]
      have hlength :
          (r ++ List.replicate (k + 1 - (digitChar d :: r).length) '0').length ≤ 15 := by
        rw [List.length_append, List.length_replicate, List.length_cons]
        omega
      exact readsAsNumber_pointed negative hfirst hd hwhole hlength (List.cons_ne_nil '0' []) rfl
    · next hpart =>
      rw [List.length_cons] at hpart
      rw [List.take_succ_cons, List.drop_succ_cons]
      rw [← List.take_append_drop k r, readDigits_append] at hr
      obtain ⟨w, hw, hrest⟩ := Option.bind_eq_some_iff.mp hr
      refine readsAsNumber_pointed negative hfirst hd hw ?_ ?_ hrest
      · rw [List.length_take]
        omega
      · apply List.ne_nil_of_length_pos
        rw [List.length_drop]
        omega

/-! ## With an exponent -/

/-- A digit, and a point where there are more. -/
theorem read?_mantissa (negative : Bool) (hpos : 0 < d) (hd : d < 10)
    (hr : readDigits d r = some v) :
    ∃ n dropped, read? true (signChars negative ++
        (digitChar d :: if r.isEmpty then [] else '.' :: r)) = some n ∧
      (n.stage = .whole ∨ n.stage = .fraction) ∧ n.Stands r.length dropped v := by
  have hsize : 10 * 10 + 9 < UInt64.size := by decide
  cases r with
  | nil =>
    obtain rfl := Option.some.inj hr
    exact ⟨_, 0, read?_first negative hpos hd [], .inl rfl, stands_whole negative (by omega)⟩
  | cons c r =>
    obtain ⟨n, dropped, hfeed, hstage, hstands, -⟩ := feed?_point true
      (stands_whole negative (by omega : d < UInt64.size)) (.inr rfl) rfl
      (by omega) (List.cons_ne_nil c r) hr
    exact ⟨n, dropped, (read?_first negative hpos hd _).trans hfeed, .inr hstage, hstands⟩

theorem readsAsNumber_exponent (negative : Bool) (hpos : 0 < d) (hd : d < 10)
    (hr : readDigits d r = some v) {power : Int} (hpower : power.natAbs < 0x80000000)
    (hrange : ∀ significand dropped : Nat, significand * Nat.pow 10 dropped ≤ v →
      0 ≤ power - r.length + dropped →
      significand * Nat.pow 10 (power - r.length + dropped).toNat ≤
        greatestWritten (power - r.length + dropped).toNat) :
    ReadsAsNumber (signChars negative ++ ((digitChar d :: if r.isEmpty then [] else '.' :: r) ++
      'e' :: (if decide (power < 0) then '-' else '+') :: digits power.natAbs)) := by
  obtain ⟨n, dropped, hread, hstage, hstands⟩ := read?_mantissa negative hpos hd hr
  have hexponent :=
    feed?_exponent true hstands (.inr hstage) (decide (power < 0)) hpower
  have htotal : (if decide (power < 0) = true then n.scale - (power.natAbs : Int)
      else n.scale + (power.natAbs : Int)) = power - r.length + dropped := by
    rw [hstands.scale]
    by_cases hneg : power < 0
    · rw [if_pos (decide_eq_true hneg)]
      omega
    · rw [if_neg (by simpa using hneg)]
      omega
  have hscaled := exists_scaleByTen hstands.room (hrange n.significand dropped hstands.below)
  obtain ⟨hcomplete, e, hvalue⟩ := Numeral.exists_value?
    (n := { n with stage := .power, powerNegative := decide (power < 0), power := power.natAbs })
    (.inr rfl) hstands.bare.2.2 htotal hscaled
  refine ⟨_, e, ?_, hcomplete, hvalue⟩
  rw [← List.append_assoc, read?_append hread]
  exact hexponent

/-- The exponent always has a sign. -/
theorem scientific_cons (d : Nat) (r : List Char) (position : Int) :
    scientific true (digitChar d :: r) position =
      (digitChar d :: if r.isEmpty then [] else '.' :: r) ++
        'e' :: (if decide (position - 1 < 0) then '-' else '+') :: digits (position - 1).natAbs := by
  unfold scientific signedDigits
  by_cases h : 0 < position
  · have hsign : ¬position - 1 < 0 := by omega
    rw [decide_eq_false hsign, if_neg hsign]
    simp [h]
  · have hsign : position - 1 < 0 := by omega
    rw [decide_eq_true hsign, if_pos hsign]
    simp [h]

/-- **A double that is written with an exponent is read.** -/
theorem readsAsNumber_scientific (negative : Bool) {bits mantissa digits : Nat}
    {exponent place : Int} {sign wideBelow : Bool}
    (hdecode : double.decode bits = .finite sign mantissa exponent wideBelow)
    (hm : 0 < mantissa) (h : shortest .even mantissa exponent wideBelow = (digits, place)) :
    ReadsAsNumber (signChars negative ++
      scientific true (Text.digits digits) (place + (Text.digits digits).length)) := by
  obtain ⟨hpos, hplace, -⟩ := shortest_spec hm h
  obtain ⟨p, rfl, -⟩ := place_of_decode hdecode
  obtain ⟨d, r, hds, hd, hfirst, hr⟩ := digits_eq_cons digits
  have hfirst := hfirst hpos
  have hposition : place + (digitChar d :: r).length - 1 = place + r.length := by
    rw [List.length_cons]
    omega
  have hhigh : 0 ≤ place + r.length → place + r.length < 309 := by
    intro hsome
    have hfull : 1 * Nat.pow 10 r.length ≤ digits :=
      (Nat.mul_le_mul_right _ hfirst).trans (readDigits_bounds hr).1
    have hle := le_greatestWritten hdecode hm h hfull hsome
    rw [Nat.one_mul] at hle
    by_contra hmore
    exact Nat.not_lt.mpr hle (greatestWritten_lt (by omega))
  rw [hds, scientific_cons, hposition]
  apply readsAsNumber_exponent negative hfirst hd hr (by omega)
  intro significand dropped hbelow hsome
  rw [add_sub_cancel_right] at hsome ⊢
  exact le_greatestWritten hdecode hm h hbelow hsome

end Texts

theorem render_numberLayout (negative : Bool) {mantissa digits : Nat} {exponent place : Int}
    {wideBelow : Bool} (hm : mantissa ≠ 0)
    (h : shortest .even mantissa exponent wideBelow = (digits, place)) :
    numberLayout.render negative mantissa exponent wideBelow =
      Numeral.signChars negative ++
        if -4 ≤ place + (Text.digits digits).length ∧ place + (Text.digits digits).length ≤ 16 then
          positional (Text.digits digits) (place + (Text.digits digits).length)
        else scientific true (Text.digits digits) (place + (Text.digits digits).length) := by
  have htie : numberLayout.tie = .even := rfl
  unfold Layout.render
  rw [if_neg hm, htie, h]
  rfl

/-- **A finite double is read back as a number**, however large or small. -/
theorem readsAsNumber_doubleChars {d : Double} {negative : Bool} {mantissa : Nat} {exponent : Int}
    {wideBelow : Bool} (h : d.value = .finite negative mantissa exponent wideBelow) :
    ReadsAsNumber (doubleChars d) := by
  rw [doubleChars, h]
  dsimp only
  rcases Nat.eq_zero_or_pos mantissa with rfl | hm
  · exact readsAsNumber_zeroPointed negative (List.cons_ne_nil '0' []) rfl
  · obtain ⟨digits, place, hdigits⟩ :
        ∃ digits place, shortest .even mantissa exponent wideBelow = (digits, place) := ⟨_, _, rfl⟩
    rw [render_numberLayout negative (Nat.ne_of_gt hm) hdigits]
    split
    · next hposition =>
      exact readsAsNumber_positional negative (shortest_spec hm hdigits).1 hposition.2
    · exact readsAsNumber_scientific negative h hm hdigits

end OData.Json
