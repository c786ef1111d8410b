import OData.Proofs.Json.Numerals

/-!
# Numerals with a point or an exponent

The digits behind the point are taken as long as the significand fits 64 bits, and passed over from
then on. So the significand and the power of ten that goes with it **stand for a number that is not
above the one that is written** (`Numeral.Stands`): a step lemma for a digit, and from it the digits
behind a point (`Numeral.feed?_point`). An exponent of 31 bits is added as it is
(`Numeral.feed?_exponent`).
-/

set_option autoImplicit false

namespace OData.Json.Numeral

open OData.Text

variable (keep : Bool) {n : Numeral} {places dropped value v w : Nat} {s : List Char}

/-- After so many places behind the point, `dropped` of them passed over, the digits of `value` have
been read, and no exponent. -/
structure Stands (n : Numeral) (places dropped value : Nat) : Prop where
  scale : n.scale = dropped - places
  room : n.significand < UInt64.size
  below : n.significand * Nat.pow 10 dropped ≤ value
  full : dropped = 0 ∨ n.fractionFull = true
  bare : n.powerNegative = false ∧ n.power = 0 ∧ n.vanished = false

/-! ## Behind the point -/

theorem step_fraction (hn : n.stage = .point ∨ n.stage = .fraction) (d : Nat) :
    n.step keep (digitChar d).toNat = .more (n.fractionDigit (d % 10)) := by
  unfold step
  dsimp only
  rcases hn with hn | hn
  · rw [hn, digit?_digitChar]
  · rw [hn, digit?_digitChar]

theorem fractionDigit_stage (n : Numeral) (d : Nat) : (n.fractionDigit d).stage = .fraction := by
  unfold fractionDigit
  split
  · rfl
  · rfl

/-- A digit that has room is appended to the significand. -/
theorem Stands.taken (h : n.Stands places dropped value) {d : Nat}
    (hroom : (!n.fractionFull && n.fits d) = true) :
    dropped = 0 ∧ (n.fractionDigit d).Stands (places + 1) 0 (value * 10 + d) := by
  have hnone : dropped = 0 := h.full.resolve_right (by simp_all)
  subst hnone
  rw [fractionDigit, if_pos hroom]
  have hbelow : n.significand ≤ value := by simpa using h.below
  have hfits : n.fits d = true := by simp_all
  refine ⟨rfl, ?_, by simpa [fits] using hfits, ?_, .inl rfl, h.bare⟩
  · show n.scale - 1 = _
    rw [h.scale]
    omega
  · show (n.significand * 10 + d) * 1 ≤ _
    omega

/-- A digit without room only makes the number greater. -/
theorem Stands.passed (h : n.Stands places dropped value) {d : Nat}
    (hroom : ¬(!n.fractionFull && n.fits d) = true) :
    (n.fractionDigit d).Stands (places + 1) (dropped + 1) (value * 10 + d) := by
  rw [fractionDigit, if_neg hroom]
  refine ⟨?_, h.room, ?_, .inr rfl, h.bare⟩
  · show n.scale = _
    rw [h.scale]
    omega
  · show n.significand * (Nat.pow 10 dropped * 10) ≤ _
    rw [← Nat.mul_assoc]
    exact Nat.le_trans (Nat.mul_le_mul_right 10 h.below) (Nat.le_add_right _ d)

/-- **One more digit behind the point.** -/
theorem Stands.digit (h : n.Stands places dropped value) (hless : dropped < places) (d : Nat) :
    ∃ dropped', (n.fractionDigit d).Stands (places + 1) dropped' (value * 10 + d) ∧
      dropped' < places + 1 := by
  by_cases hroom : (!n.fractionFull && n.fits d) = true
  · exact ⟨0, (h.taken hroom).2, Nat.succ_pos places⟩
  · exact ⟨dropped + 1, h.passed hroom, Nat.succ_lt_succ hless⟩

/-- More digits behind the point. -/
theorem Stands.feed? (h : n.Stands places dropped value) (hless : dropped < places)
    (hstage : n.stage = .fraction) (hs : readDigits value s = some v) :
    ∃ n' dropped', n.feed? keep s = some n' ∧ n'.stage = .fraction ∧
      n'.Stands (places + s.length) dropped' v ∧ dropped' < places + s.length := by
  induction s generalizing n places dropped value with
  | nil =>
    obtain rfl := Option.some.inj hs
    exact ⟨n, dropped, rfl, hstage, h, hless⟩
  | cons c s ih =>
    obtain ⟨d, hd, hrest⟩ := Option.bind_eq_some_iff.mp hs
    obtain ⟨hlt, rfl⟩ := eq_digitChar hd
    obtain ⟨dropped', hnext, hless'⟩ := h.digit hless d
    obtain ⟨n', dropped'', hfeed, hstage', hstands, hless''⟩ :=
      ih hnext hless' (fractionDigit_stage n d) hrest
    have hstep := step_fraction keep (.inr hstage) d
    rw [Nat.mod_eq_of_lt hlt] at hstep
    rw [Nat.add_right_comm, Nat.add_assoc] at hstands hless''
    exact ⟨n', dropped'', (feed?_more hstep s).trans hfeed, hstage', hstands, hless''⟩

/-- **A point with digits behind it**, the first of which has room: at least that one is taken. -/
theorem feed?_point (h : n.Stands 0 0 w) (hstage : n.stage = .zero ∨ n.stage = .whole)
    (hopen : n.fractionFull = false) (hroom : w * 10 + 9 < UInt64.size) (hne : s ≠ [])
    (hs : readDigits w s = some v) :
    ∃ n' dropped, n.feed? keep ('.' :: s) = some n' ∧ n'.stage = .fraction ∧
      n'.Stands s.length dropped v ∧ dropped < s.length := by
  have hpoint : n.step keep ('.').toNat = .more { n with stage := .point } := by
    unfold step
    rcases hstage with hstage | hstage
    · rw [hstage]
      rfl
    · rw [hstage]
      rfl
  rw [feed?_more hpoint]
  cases s with
  | nil => exact absurd rfl hne
  | cons c s =>
    obtain ⟨d, hd, hrest⟩ := Option.bind_eq_some_iff.mp hs
    obtain ⟨hlt, rfl⟩ := eq_digitChar hd
    have hpointed : ({ n with stage := .point } : Numeral).Stands 0 0 w :=
      ⟨h.scale, h.room, h.below, h.full, h.bare⟩
    have hbelow : n.significand ≤ w := by simpa using h.below
    have htaken : (!n.fractionFull && ({ n with stage := .point } : Numeral).fits d) = true := by
      simp only [hopen, Bool.not_false, Bool.true_and, fits, decide_eq_true_eq]
      omega
    have hfirst := (hpointed.taken htaken).2
    have hstep := step_fraction keep (n := { n with stage := .point }) (.inl rfl) d
    rw [Nat.mod_eq_of_lt hlt] at hstep
    rw [feed?_more hstep, List.length_cons, Nat.add_comm]
    exact hfirst.feed? keep (Nat.zero_lt_succ 0) (fractionDigit_stage _ d) hrest

/-! ## The exponent -/

/-- One more digit of an exponent of 31 bits. -/
theorem step_power (hn : n.stage = .markSign ∨ n.stage = .power) (hvanished : n.vanished = false)
    {d : Nat} (hd : d < 10) (h : n.power * 10 + d < 0x80000000) :
    n.step keep (digitChar d).toNat =
      .more { n with stage := .power, power := n.power * 10 + d } := by
  have hdigit : n.powerDigit keep (d % 10) =
      .more { n with stage := .power, power := n.power * 10 + d } := by
    rw [Nat.mod_eq_of_lt hd, powerDigit, if_neg (by simp [hvanished]), if_pos h]
  rw [← hdigit]
  unfold step
  dsimp only
  rcases hn with hn | hn
  · rw [hn, digit?_digitChar]
  · rw [hn, digit?_digitChar]

theorem feed?_power (hstage : n.stage = .power) (hvanished : n.vanished = false)
    (hs : readDigits n.power s = some v) (hv : v < 0x80000000) :
    n.feed? keep s = some { n with stage := .power, power := v } := by
  induction s generalizing n with
  | nil =>
    obtain rfl := Option.some.inj hs
    rw [← hstage]
    rfl
  | cons c s ih =>
    obtain ⟨d, hd, hrest⟩ := Option.bind_eq_some_iff.mp hs
    obtain ⟨hlt, rfl⟩ := eq_digitChar hd
    have hless := Nat.lt_of_le_of_lt (le_of_readDigits hrest) hv
    rw [feed?_more (step_power keep (.inr hstage) hvanished hlt hless)]
    exact ih (n := { n with stage := .power, power := n.power * 10 + d }) rfl hvanished hrest

/-- **An exponent with its sign**, behind a number that has none yet. -/
theorem feed?_exponent (h : n.Stands places dropped value)
    (hstage : n.stage = .zero ∨ n.stage = .whole ∨ n.stage = .fraction) (negative : Bool) {k : Nat}
    (hk : k < 0x80000000) :
    n.feed? keep ('e' :: (if negative then '-' else '+') :: digits k) =
      some { n with stage := .power, powerNegative := negative, power := k } := by
  obtain ⟨hsign, hpower, hvanished⟩ := h.bare
  have hmark : n.step keep ('e').toNat = .more { n with stage := .mark } := by
    unfold step
    rcases hstage with hstage | hstage | hstage
    · rw [hstage]
      rfl
    · rw [hstage]
      rfl
    · rw [hstage]
      rfl
  have hmarked : ({ n with stage := .mark } : Numeral).step keep
      (if negative then '-' else '+').toNat =
        .more { n with stage := .markSign, powerNegative := negative } := by
    cases negative with
    | false =>
      exact congrArg (fun b => Next.more { n with stage := .markSign, powerNegative := b }) hsign
    | true => rfl
  obtain ⟨d, r, hds, hd, -, hr⟩ := digits_eq_cons k
  have hread : readDigits (n.power * 10 + d) r = some k := by
    rwa [hpower, Nat.zero_mul, Nat.zero_add]
  have hless := Nat.lt_of_le_of_lt (le_of_readDigits hread) hk
  have hfirst := step_power keep
    (n := { n with stage := .markSign, powerNegative := negative }) (.inl rfl) hvanished hd hless
  rw [feed?_more hmark, feed?_more hmarked, hds, feed?_more hfirst]
  exact feed?_power keep rfl hvanished hread hk

end OData.Json.Numeral
