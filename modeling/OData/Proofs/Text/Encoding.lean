import OData.Text.Utf8

/-!
# Encoded text, byte by byte

Bytes of encoded text that belong to ASCII stand for a character of their own
(`Utf8.eq_of_mem_encodeChar`); every byte of any other character is above them.
-/

set_option autoImplicit false

namespace OData.Text.Utf8

/-- ASCII is encoded as it is. -/
theorem encodeChar_of_lt {c : Char} (h : c.toNat < 0x80) : encodeChar c = [c.toNat.toUInt8] := by
  simp only [encodeChar, if_pos h]

/-- All bytes of any other character are above ASCII, the first one and those that continue it. -/
theorem le_of_mem_encodeChar {c : Char} (h : 0x80 ≤ c.toNat) {b : UInt8} (hb : b ∈ encodeChar c) :
    0x80 ≤ b.toNat := by
  have hc : c.toNat < 0x110000 := by
    rcases c.valid with hv | hv
    · exact Nat.lt_trans hv (by decide)
    · exact hv.2
  unfold encodeChar at hb
  generalize c.toNat = n at h hc hb
  dsimp only at hb
  rw [if_neg (by omega)] at hb
  -- Two, three or four bytes: the first one and every one that continues it is above ASCII.
  split at hb
  · simp only [List.mem_cons, List.not_mem_nil, or_false] at hb
    rcases hb with rfl | rfl <;> rw [toNat_toUInt8 (by omega)] <;> omega
  split at hb
  · simp only [List.mem_cons, List.not_mem_nil, or_false] at hb
    rcases hb with rfl | rfl | rfl <;> rw [toNat_toUInt8 (by omega)] <;> omega
  · simp only [List.mem_cons, List.not_mem_nil, or_false] at hb
    rcases hb with rfl | rfl | rfl | rfl <;> rw [toNat_toUInt8 (by omega)] <;> omega

/-- A byte of ASCII stands for a character of its own wherever it occurs. -/
theorem eq_of_mem_encodeChar {c : Char} {b : UInt8} (hb : b.toNat < 0x80) (h : b ∈ encodeChar c) :
    c.toNat = b.toNat := by
  by_cases hc : c.toNat < 0x80
  · rw [encodeChar_of_lt hc, List.mem_singleton] at h
    rw [h, toNat_toUInt8 (by omega)]
  · have := le_of_mem_encodeChar (Nat.le_of_not_lt hc) h
    omega

theorem encode_append (s r : List Char) : encode (s ++ r) = encode s ++ encode r :=
  List.flatMap_append

theorem encode_cons (c : Char) (s : List Char) : encode (c :: s) = encodeChar c ++ encode s :=
  List.flatMap_cons

/-- A character of ASCII is not found in the bytes of another one, so a text can be cut at it before
or after it has been encoded. -/
theorem not_mem_encodeChar {c d : Char} {b : UInt8} (hb : b.toNat = d.toNat) (hd : d.toNat < 0x80)
    (h : c ≠ d) : b ∉ encodeChar c := by
  intro hm
  have hc : c.toNat = b.toNat := eq_of_mem_encodeChar (by rwa [hb]) hm
  exact h (Char.toNat_inj.mp (hc.trans hb))

theorem encodeChar_ne_nil (c : Char) : encodeChar c ≠ [] := by
  unfold encodeChar
  dsimp only
  repeat' split
  all_goals simp

end OData.Text.Utf8
