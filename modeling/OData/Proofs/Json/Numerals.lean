import OData.Proofs.Json.Nest
import OData.Proofs.Text.Numerals

/-!
# Numerals that are written are read back

A number is taken byte by byte. **The numeral of an integer of 64 bits is read as that integer**
(`Numeral.read?_signedDigits`), whether it is kept or only passed over: what is kept to the end is
passed over to the end (`Numeral.feed?_skimmed`).
-/

set_option autoImplicit false

namespace OData.Json

open OData.Text

/-- The integers that are kept exactly: those of 64 bits, signed or not. -/
def Native (i : Int) : Prop := -0x8000000000000000 ≤ i ∧ i ≤ 0xFFFFFFFFFFFFFFFF

instance (i : Int) : Decidable (Native i) := inferInstanceAs (Decidable (_ ∧ _))

namespace Numeral

/-- The number under way, if it goes on. -/
def Next.more? : Next → Option Numeral
  | .more n => some n
  | .done | .malformed _ => none

theorem eq_more_of_more? {next : Next} {n : Numeral} (h : next.more? = some n) :
    next = .more n := by
  cases next with
  | more => exact congrArg Next.more (Option.some.inj h)
  | done => cases h
  | malformed => cases h

/-- A number under way after some more characters, if it goes on all the time. -/
def feed? (keep : Bool) (n : Numeral) (s : List Char) : Option Numeral :=
  s.foldlM (fun n c => (n.step keep c.toNat).more?) n

/-- A number from its first character on. -/
def read? (keep : Bool) : List Char → Option Numeral
  | [] => none
  | c :: r => (start? c.toNat).bind fun n => n.feed? keep r

variable {keep : Bool}

theorem feed?_cons (n : Numeral) (c : Char) (s : List Char) :
    n.feed? keep (c :: s) = (n.step keep c.toNat).more?.bind fun n => n.feed? keep s :=
  List.foldlM_cons

theorem feed?_more {n n' : Numeral} {c : Char} (h : n.step keep c.toNat = .more n')
    (s : List Char) : n.feed? keep (c :: s) = n'.feed? keep s := by
  rw [feed?_cons, h]
  rfl

theorem feed?_append (n : Numeral) (s r : List Char) :
    n.feed? keep (s ++ r) = (n.feed? keep s).bind fun n => n.feed? keep r :=
  List.foldlM_append

theorem read?_append {n : Numeral} {s : List Char} (h : read? keep s = some n) (r : List Char) :
    read? keep (s ++ r) = n.feed? keep r := by
  cases s with
  | nil => cases h
  | cons c s =>
    obtain ⟨m, hm, hs⟩ := Option.bind_eq_some_iff.mp h
    rw [List.cons_append, read?, hm, Option.bind_some, feed?_append, hs, Option.bind_some]

/-- What is kept to the end is passed over to the end. -/
theorem feed?_skimmed {n n' : Numeral} {s : List Char} (h : n.feed? true s = some n') :
    n.feed? keep s = some n' := by
  cases keep with
  | true => exact h
  | false =>
    induction s generalizing n with
    | nil => exact h
    | cons c s ih =>
      rw [feed?_cons] at h ⊢
      rcases step_keep n c.toNat with hstep | hstep
      · rw [hstep] at h
        cases h
      · rw [hstep] at h
        obtain ⟨m, hm, hrest⟩ := Option.bind_eq_some_iff.mp h
        rw [hm, Option.bind_some]
        exact ih hrest

/-! ## Which characters are taken -/

/-- No byte of another character than an ASCII one takes a number further. -/
theorem more?_of_not_ascii (n : Numeral) {b : Nat} (h : 0x80 ≤ b) :
    (n.step keep b).more? = none := by
  have hdigit : (if 0x30 ≤ b ∧ b ≤ 0x39 then some (b - 0x30) else none) = none :=
    if_neg (by omega)
  unfold step
  dsimp only
  rw [hdigit, if_neg (by omega), if_neg (by omega), if_neg (by omega), if_neg (by omega)]
  cases n.stage with
  | _ => rfl

theorem ascii_of_feed? {n n' : Numeral} {s : List Char} (h : n.feed? keep s = some n') :
    ∀ c ∈ s, c.toNat < 0x80 := by
  induction s generalizing n with
  | nil =>
    intro c hc
    cases hc
  | cons c s ih =>
    rw [feed?_cons] at h
    obtain ⟨m, hm, hrest⟩ := Option.bind_eq_some_iff.mp h
    refine List.forall_mem_cons.mpr ⟨Nat.lt_of_not_le ?_, ih hrest⟩
    intro hc
    rw [more?_of_not_ascii n hc] at hm
    cases hm

theorem start?_eq_some {b : Nat} {n : Numeral} (h : start? b = some n) :
    b = 0x2D ∨ 0x30 ≤ b ∧ b ≤ 0x39 := by
  unfold start? at h
  split at h
  · next hb => exact .inl hb
  split at h
  · next hb => exact .inr (by omega)
  split at h
  · next hb => exact .inr (by omega)
  · cases h

/-- **A text that is read as a number is plain ASCII.** -/
theorem ascii_of_read? {n : Numeral} {s : List Char} (h : read? keep s = some n) :
    ∀ c ∈ s, c.toNat < 0x80 := by
  cases s with
  | nil => cases h
  | cons c s =>
    obtain ⟨m, hm, hrest⟩ := Option.bind_eq_some_iff.mp h
    have hfirst := start?_eq_some hm
    exact List.forall_mem_cons.mpr ⟨by omega, ascii_of_feed? hrest⟩

/-! ## Digits -/

theorem toNat_digitChar (n : Nat) : (digitChar n).toNat = 0x30 + n % 10 := by
  have hall : ∀ k < 10, (digitChar k).toNat = 0x30 + k := by decide
  rw [← digitChar_mod]
  exact hall _ (Nat.mod_lt n (by decide))

/-- How the byte of a digit is understood. -/
theorem digit?_digitChar (d : Nat) :
    (if 0x30 ≤ (digitChar d).toNat ∧ (digitChar d).toNat ≤ 0x39 then
      some ((digitChar d).toNat - 0x30) else none) = some (d % 10) := by
  rw [toNat_digitChar, if_pos (by omega), Nat.add_sub_cancel_left]

/-- One more digit before the point. -/
theorem step_whole (keep : Bool) {n : Numeral} (hn : n.stage = .whole) (d : Nat) :
    n.step keep (digitChar d).toNat = .more (n.wholeDigit (d % 10)) := by
  unfold step
  dsimp only
  rw [hn, digit?_digitChar]

/-- Digits before the point are taken as long as the number fits 64 bits. -/
theorem feed?_whole {n : Numeral} {s : List Char} {v : Nat} (hstage : n.stage = .whole)
    (hfull : n.wholeFull = false) (hs : readDigits n.significand s = some v)
    (hv : v < UInt64.size) :
    n.feed? keep s = some { n with stage := .whole, significand := v } := by
  induction s generalizing n with
  | nil =>
    obtain rfl := Option.some.inj hs
    rw [← hstage]
    rfl
  | cons c s ih =>
    obtain ⟨d, hd, hrest⟩ := Option.bind_eq_some_iff.mp hs
    obtain ⟨hlt, rfl⟩ := eq_digitChar hd
    have hfits : n.fits d = true := by
      have hle := le_of_readDigits hrest
      simpa [fits] using Nat.lt_of_le_of_lt hle hv
    have htaken : (!n.wholeFull && n.fits d) = true := by rw [hfull, hfits]; rfl
    have hstep := step_whole keep hstage d
    rw [Nat.mod_eq_of_lt hlt, wholeDigit, if_pos htaken] at hstep
    rw [feed?_more hstep]
    exact ih (n := { n with stage := .whole, significand := n.significand * 10 + d }) rfl hfull
      hrest

/-! ## Signs and first digits -/

/-- A minus sign, or nothing. -/
def signChars (negative : Bool) : List Char := if negative then ['-'] else []

/-- The first digit of a number, behind the sign. -/
theorem read?_first (negative : Bool) {d : Nat} (hpos : 0 < d) (hd : d < 10) (r : List Char) :
    read? keep (signChars negative ++ digitChar d :: r) =
      feed? keep { stage := .whole, negative := negative, significand := d } r := by
  cases negative with
  | false =>
    have hall : ∀ d < 10, 0 < d → start? (digitChar d).toNat =
        some { stage := .whole, significand := d } := by decide
    show (start? (digitChar d).toNat).bind _ = _
    rw [hall d hd hpos, Option.bind_some]
  | true =>
    have hall : ∀ keep, ∀ d < 10, 0 < d →
        ({ stage := .sign, negative := true } : Numeral).step keep (digitChar d).toNat =
          .more { stage := .whole, negative := true, significand := d } := by decide
    exact feed?_more (hall keep d hd hpos) r

/-- A zero before the point has no other digit beside it. -/
theorem read?_zero (negative : Bool) (r : List Char) :
    read? keep (signChars negative ++ '0' :: r) =
      feed? keep { stage := .zero, negative := negative } r := by
  cases negative with
  | false => rfl
  | true => rfl

/-- A numeral up to 64 bits is the significand. -/
theorem read?_digits (negative : Bool) {n : Nat} (hpos : 0 < n) (hn : n < UInt64.size) :
    read? keep (signChars negative ++ digits n) =
      some { stage := .whole, negative := negative, significand := n } := by
  obtain ⟨d, r, hds, hd, hfirst, hr⟩ := digits_eq_cons n
  rw [hds, read?_first negative (hfirst hpos) hd]
  exact feed?_whole rfl rfl hr hn

theorem value?_of_negative {n : Nat} (hpos : 0 < n) (hn : n ≤ 0x8000000000000000) :
    ({ stage := .whole, negative := true, significand := n } : Numeral).value? =
      some (.integer (-(n : Int))) := by
  have hzero : n ≠ 0 := Nat.ne_of_gt hpos
  simp [value?, isWhole, hzero, Nat.not_lt.mpr hn]

theorem signedDigits_eq (i : Int) :
    signedDigits i = signChars (decide (i < 0)) ++ digits i.natAbs := by
  unfold signedDigits signChars
  by_cases h : i < 0
  · rw [if_pos h, if_pos (decide_eq_true h)]
    rfl
  · rw [if_neg h, if_neg (by simpa using h)]
    rfl

/-- **The numeral of an integer of 64 bits is read as that integer.** -/
theorem read?_signedDigits (keep : Bool) {i : Int} (hi : Native i) :
    ∃ n, read? keep (signedDigits i) = some n ∧ n.value? = some (.integer i) ∧
      (n.stage = .zero ∨ n.stage = .whole) := by
  obtain ⟨hlow, hhigh⟩ := hi
  have hsize : UInt64.size = 0x10000000000000000 := rfl
  rw [signedDigits_eq]
  rcases Int.lt_trichotomy i 0 with hneg | rfl | hpos
  · have hvalue : -(i.natAbs : Int) = i := by omega
    rw [decide_eq_true hneg]
    refine ⟨_, read?_digits true (by omega) (by omega), ?_, .inr rfl⟩
    rw [value?_of_negative (by omega) (by omega), hvalue]
  · have hzero : digits (Int.natAbs 0) = ['0'] := by
      rw [digits]
      rfl
    refine ⟨{ stage := .zero }, ?_, rfl, .inl rfl⟩
    rw [hzero]
    rfl
  · have hvalue : (i.natAbs : Int) = i := by omega
    rw [decide_eq_false (by omega)]
    refine ⟨_, read?_digits false (by omega) (by omega), ?_, .inr rfl⟩
    exact congrArg (fun i => some (Json.integer i)) hvalue

end Numeral

end OData.Json
