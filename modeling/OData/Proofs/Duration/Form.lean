import OData.Proofs.Duration

/-!
# The form of a written duration

Every duration is written in the same `Form`: a sign if it is negative, then hours, minutes and
seconds in this order. Each of them stands there at most once and at least one of them does; hours
and minutes are never zero, and minutes and seconds stay below sixty. **The text gives back the
nanoseconds that it was made of** (`Duration.nanos_of_iso`), so no other duration is written like
it. The durations of the lowest whole second are left out of this. That second has no positive
counterpart in 64 bits, and they all have the text of the longest duration with a minus sign in
front (`Duration.iso_of_lowest`).
-/

set_option autoImplicit false

namespace OData.Duration

open OData.Text

/-! ## Whole seconds -/

/-- The seconds of a duration without the part of a second that is left towards zero. -/
def wholeSeconds (d : Duration) : Int := d.nanos.tdiv nanosPerSecond

/-- Without their signs, only the durations of the lowest second are out of bounds. -/
theorem natAbs_lt_iff (d : Duration) :
    d.nanos.natAbs < secondsBound * nanosPerSecond ↔ -(secondsBound : Int) < d.wholeSeconds := by
  have hbelow := d.below
  rcases Int.natAbs_eq d.nanos with hpos | hneg
  · have hwhole : d.wholeSeconds = ((d.nanos.natAbs / nanosPerSecond : Nat) : Int) := by
      unfold wholeSeconds
      rw [hpos]
      rfl
    rw [hwhole]
    simp only [secondsBound, nanosPerSecond] at hbelow ⊢
    omega
  · have hwhole : d.wholeSeconds = -((d.nanos.natAbs / nanosPerSecond : Nat) : Int) := by
      unfold wholeSeconds
      rw [hneg, Int.neg_tdiv, Int.natAbs_neg]
      rfl
    rw [hwhole]
    simp only [secondsBound, nanosPerSecond]
    omega

/-- The durations of the lowest second have one text. -/
theorem iso_of_lowest {d : Duration} (h : d.wholeSeconds = -(secondsBound : Int)) :
    d.iso = "-PT2562047788015215H30M7.999999999S" := by
  have hlong : ¬ d.nanos.natAbs < secondsBound * nanosPerSecond := by
    rw [natAbs_lt_iff, h]
    exact Int.lt_irrefl _
  have hbelow := d.below
  have hneg : d.nanos < 0 := by
    simp only [secondsBound, nanosPerSecond] at hbelow hlong
    omega
  rw [iso, if_neg (Int.ne_of_lt hneg), if_pos hneg, magnitude, if_neg hlong]
  decide +kernel

/-! ## The form -/

/-- The text of a fraction: nothing, or a point and up to nine digits of which the last is not
zero. -/
def IsFraction (s : List Char) : Prop :=
  s = [] ∨ ∃ ds, s = '.' :: ds ∧ ds ≠ [] ∧ ds.length ≤ 9 ∧ (∀ c ∈ ds, isDigit c = true) ∧
    ds.getLast? ≠ some '0'

/-- What a written duration consists of: the sign and the parts that are there, the seconds with
the text of their fraction. -/
structure Form where
  negative : Bool
  hours? : Option Nat
  minutes? : Option Nat
  seconds? : Option (Nat × List Char)
  hours_ne_zero : ∀ n ∈ hours?, n ≠ 0
  minutes_ne_zero : ∀ n ∈ minutes?, n ≠ 0
  minutes_lt : ∀ n ∈ minutes?, n < 60
  seconds_lt : ∀ s ∈ seconds?, s.1 < 60
  isFraction : ∀ s ∈ seconds?, IsFraction s.2
  isSome : hours?.isSome ∨ minutes?.isSome ∨ seconds?.isSome

/-- A number with its unit, if there is one. -/
def componentText (unit : Char) (n? : Option Nat) : List Char :=
  n?.elim [] fun n => digits n ++ [unit]

def Form.text (f : Form) : List Char :=
  (if f.negative then ['-'] else []) ++ 'P' :: 'T' ::
    (componentText 'H' f.hours? ++ componentText 'M' f.minutes? ++
      f.seconds?.elim [] fun s => digits s.1 ++ s.2 ++ ['S'])

/-! ## Durations have it -/

theorem isFraction_fractionText {nanos : Nat} (h : nanos < nanosPerSecond) :
    IsFraction (fractionText nanos) := by
  unfold fractionText
  split
  · exact .inl rfl
  · next hpos =>
    have hread := readDigits_paddedDigits 9 nanos
    have hkept := List.rdropWhile_prefix (· == '0') (paddedDigits 9 nanos)
    obtain ⟨k, hk⟩ := rdropWhile_append_replicate '0' (paddedDigits 9 nanos)
    rw [dropEndWhile_eq_rdropWhile]
    refine .inr ⟨_, rfl, ?_, ?_, ?_, ?_⟩
    · -- If all nine digits were zeros, they would be read as zero.
      intro hnil
      rw [hnil, List.nil_append] at hk
      rw [← hk, readDigits_zeros, Nat.zero_mul] at hread
      exact hpos (Option.some.inj hread).symm
    · exact hkept.length_le.trans (length_paddedDigits (by decide) h).le
    · intro c hc
      exact isDigit_of_mem (mem_paddedDigits (hkept.subset hc))
    · intro hlast
      have hzero := forall_mem_getLast?.mpr (List.rdropWhile_last_not _ _) _ hlast
      cases hzero

/-- A part that is left out if it is zero. -/
def part? (n : Nat) : Option Nat := if n = 0 then none else some n

theorem mem_part? {n m : Nat} : m ∈ part? n ↔ n ≠ 0 ∧ n = m := by
  unfold part?
  split <;> simp_all

theorem componentText_part? (unit : Char) (n : Nat) :
    componentText unit (part? n) = if n = 0 then [] else digits n ++ [unit] := by
  unfold part?
  split <;> rfl

theorem isSome_part? {n : Nat} : (part? n).isSome ↔ n ≠ 0 := by
  unfold part?
  split <;> simp_all

/-- The seconds with their fraction, left out if there are none. -/
def secondsPart? (seconds rest : Nat) : Option (Nat × List Char) :=
  if seconds = 0 ∧ rest = 0 then none else some (seconds, fractionText rest)

theorem mem_secondsPart? {seconds rest : Nat} {s : Nat × List Char} :
    s ∈ secondsPart? seconds rest ↔
      ¬ (seconds = 0 ∧ rest = 0) ∧ (seconds, fractionText rest) = s := by
  unfold secondsPart?
  split <;> simp_all

theorem isSome_secondsPart? {seconds rest : Nat} :
    (secondsPart? seconds rest).isSome ↔ ¬ (seconds = 0 ∧ rest = 0) := by
  unfold secondsPart?
  split <;> simp_all

theorem elim_secondsPart? (seconds rest : Nat) :
    ((secondsPart? seconds rest).elim [] fun s => digits s.1 ++ s.2 ++ ['S']) =
      secondsText seconds rest := by
  unfold secondsPart? secondsText
  split <;> rfl

/-- The form of some nanoseconds. -/
def Form.ofNanos (negative : Bool) {nanos : Nat} (h : nanos ≠ 0) : Form where
  negative := negative
  hours? := part? (nanos / nanosPerSecond / 3600)
  minutes? := part? (nanos / nanosPerSecond % 3600 / 60)
  seconds? := secondsPart? (nanos / nanosPerSecond % 60) (nanos % nanosPerSecond)
  hours_ne_zero n hn := (mem_part?.mp hn).2 ▸ (mem_part?.mp hn).1
  minutes_ne_zero n hn := (mem_part?.mp hn).2 ▸ (mem_part?.mp hn).1
  minutes_lt n hn := by
    obtain ⟨-, rfl⟩ := mem_part?.mp hn
    omega
  seconds_lt s hs := by
    obtain ⟨-, rfl⟩ := mem_secondsPart?.mp hs
    exact Nat.mod_lt _ (by decide)
  isFraction s hs := by
    obtain ⟨-, rfl⟩ := mem_secondsPart?.mp hs
    exact isFraction_fractionText (Nat.mod_lt _ (by decide))
  isSome := by
    rw [isSome_part?, isSome_part?, isSome_secondsPart?]
    simp only [nanosPerSecond]
    omega

theorem Form.text_ofNanos (negative : Bool) {nanos : Nat} (h : nanos ≠ 0) :
    (ofNanos negative h).text = (if negative then ['-'] else []) ++ isoMagnitude nanos := by
  unfold text ofNanos isoMagnitude
  dsimp only
  rw [componentText_part?, componentText_part?, elim_secondsPart?]
  rfl

/-- No time at all is written as no seconds. -/
def Form.zero : Form where
  negative := false
  hours? := none
  minutes? := none
  seconds? := some (0, [])
  hours_ne_zero _ hn := nomatch hn
  minutes_ne_zero _ hn := nomatch hn
  minutes_lt _ hn := nomatch hn
  seconds_lt := by
    rintro s ⟨⟩
    decide
  isFraction := by
    rintro s ⟨⟩
    exact .inl rfl
  isSome := .inr (.inr rfl)

theorem exists_form (d : Duration) : ∃ f : Form, d.iso.toList = f.text := by
  unfold iso
  split
  · refine ⟨.zero, ?_⟩
    unfold Form.text Form.zero
    decide +kernel
  · next hne =>
    have hmagnitude : d.magnitude ≠ 0 := by
      unfold magnitude
      split
      · exact Int.natAbs_ne_zero.mpr hne
      · decide
    refine ⟨.ofNanos (decide (d.nanos < 0)) hmagnitude, ?_⟩
    rw [String.toList_ofList, Form.text_ofNanos]
    simp only [decide_eq_true_eq]

/-! ## Durations are told apart -/

/-- **A duration is written in the form, and its text is read as its nanoseconds**, so that no other
duration is written like it. The durations of the lowest second are the exception. -/
theorem nanos_of_iso {d : Duration} (h : -(secondsBound : Int) < d.wholeSeconds) :
    (∃ f : Form, d.iso.toList = f.text) ∧
      read? d.iso.toList = some d.nanos ∧
      ∀ d' : Duration, -(secondsBound : Int) < d'.wholeSeconds → d'.iso = d.iso → d' = d := by
  have hread := read?_iso ((natAbs_lt_iff d).mpr h)
  refine ⟨exists_form d, hread, ?_⟩
  intro d' h' hsame
  have hread' := read?_iso ((natAbs_lt_iff d').mpr h')
  rw [hsame, hread] at hread'
  have hnanos := Option.some.inj hread'
  cases d
  cases d'
  cases hnanos
  rfl

/-- A nanosecond short of the lowest second. -/
def shortOfLowest : Duration := ⟨-(secondsBound : Int) * nanosPerSecond + 1, by decide, by decide⟩

/-- The shortest duration below zero, and the longest one that is read back: its text is that of the
durations of the lowest second too. -/
theorem nanos_of_iso_shortOfLowest :
    shortOfLowest.wholeSeconds = -9223372036854775807 ∧
    shortOfLowest.iso = "-PT2562047788015215H30M7.999999999S" ∧
    read? shortOfLowest.iso.toList = some (-9223372036854775807999999999) ∧
    (Duration.mk (-1) (by decide) (by decide)).iso = "-PT0.000000001S" ∧
    read? (Duration.mk (-1) (by decide) (by decide)).iso.toList = some (-1) :=
  ⟨by decide, by decide +kernel, (nanos_of_iso (d := shortOfLowest) (by decide)).2.1,
    by decide +kernel, (nanos_of_iso (d := ⟨-1, by decide, by decide⟩) (by decide)).2.1⟩

end OData.Duration
