import OData.Percent
import OData.Text.Split

/-!
# Reading percent-encoded text

A text is spelled with its characters as they stand and with their escaped bytes, in any mix that
leaves no `%` as it stands (`Spells`). Spellings can be put one behind the other, and **decoding
reads the text back from each of them** (`Spells.decode`). So an encoded text can be decoded in one
go with the delimiters around it.
-/

set_option autoImplicit false

namespace OData.Percent

open OData.Text

theorem decodeBytes_cons {c : Char} (hc : c ≠ '%') (r : List Char) :
    decodeBytes (c :: r) = Utf8.encodeChar c ++ decodeBytes r := by
  rw [decodeBytes]
  intro a b r' hpercent
  exact absurd hpercent hc

theorem decodeBytes_escapeByte (b : UInt8) (r : List Char) :
    decodeBytes (escapeByte b ++ r) = b :: decodeBytes r := by
  have hb : b.toNat < 256 := b.toNat_lt
  have hvalue : (b.toNat / 16 % 16 * 16 + b.toNat % 16).toUInt8 = b := by
    rw [show b.toNat / 16 % 16 * 16 + b.toNat % 16 = b.toNat by omega]
    simp
  unfold escapeByte
  simp only [List.cons_append, List.nil_append]
  rw [decodeBytes, Hex.digitValue?_upperDigit, Hex.digitValue?_upperDigit]
  dsimp only
  rw [hvalue]

theorem decodeBytes_escaped (bs : List UInt8) (r : List Char) :
    decodeBytes (bs.flatMap escapeByte ++ r) = bs ++ decodeBytes r := by
  induction bs with
  | nil => rfl
  | cons b bs ih =>
    rw [List.flatMap_cons, List.append_assoc, decodeBytes_escapeByte, ih, List.cons_append]

/-- The text `s` is a spelling of `t`, whatever stands behind it. -/
def Spells (s t : List Char) : Prop :=
  ∀ r, decodeBytes (s ++ r) = Utf8.encode t ++ decodeBytes r

namespace Spells

theorem decode {s t : List Char} (h : Spells s t) : Percent.decode s = t := by
  have hbytes : decodeBytes s = Utf8.encode t := by
    simpa [decodeBytes] using h []
  rw [Percent.decode, hbytes, Utf8.lossy_encode]

theorem nil : Spells [] [] := fun _ => rfl

theorem append {s t s' t' : List Char} (h : Spells s t) (h' : Spells s' t') :
    Spells (s ++ s') (t ++ t') := by
  intro r
  rw [List.append_assoc, h, h', Utf8.encode, Utf8.encode, Utf8.encode, List.flatMap_append,
    List.append_assoc]

/-- A character stands for itself, unless it is the escape. -/
theorem cons {c : Char} (hc : c ≠ '%') {s t : List Char} (h : Spells s t) :
    Spells (c :: s) (c :: t) := by
  intro r
  rw [List.cons_append, decodeBytes_cons hc, h, Utf8.encode, Utf8.encode, List.flatMap_cons,
    List.append_assoc]

theorem escapeChar {keep : Char → Bool} (hkeep : keep '%' = false) (c : Char) :
    Spells (Percent.escapeChar keep c) [c] := by
  unfold Percent.escapeChar
  split
  · next hc =>
    refine cons ?_ nil
    rintro rfl
    rw [hkeep] at hc
    cases hc
  · intro r
    rw [decodeBytes_escaped, Utf8.encode, List.flatMap_singleton]

theorem encode {keep : Char → Bool} (hkeep : keep '%' = false) (s : List Char) :
    Spells (Percent.encode keep s) s := by
  induction s with
  | nil => exact nil
  | cons c s ih => exact (escapeChar hkeep c).append ih

/-- Texts that are spelled one by one, with a separator that stands for itself between them. -/
theorem joinWith {sep : Char} (hsep : sep ≠ '%') {ι : Type} {f g : ι → List Char} (is : List ι)
    (h : ∀ i ∈ is, Spells (f i) (g i)) :
    Spells (Text.joinWith [sep] (is.map f)) (Text.joinWith [sep] (is.map g)) := by
  induction is with
  | nil => exact nil
  | cons i is ih =>
    have hi : Spells (f i) (g i) := h i List.mem_cons_self
    have hrest := ih fun j hj => h j (List.mem_cons_of_mem _ hj)
    cases is with
    | nil => exact hi
    | cons j is => exact (hi.append (cons hsep nil)).append hrest

end Spells

/-- What holds of the characters that are kept, of `%` and of the digits holds of an encoded text.
-/
theorem forall_mem_encode {P : Char → Prop} {keep : Char → Bool} {s : List Char}
    (hkeep : ∀ c ∈ s, keep c = true → P c) (hpercent : P '%') (hdigit : ∀ n, P (Hex.upperDigit n)) :
    ∀ c ∈ encode keep s, P c := by
  intro c hc
  obtain ⟨a, hs, hc⟩ := List.mem_flatMap.mp hc
  unfold escapeChar at hc
  split at hc
  · next ha =>
    rw [List.mem_singleton.mp hc]
    exact hkeep a hs ha
  · obtain ⟨b, -, hc⟩ := List.mem_flatMap.mp hc
    unfold escapeByte at hc
    simp only [List.mem_cons, List.not_mem_nil, or_false] at hc
    rcases hc with rfl | rfl | rfl
    · exact hpercent
    · exact hdigit _
    · exact hdigit _

theorem upperDigit_ne {c : Char} (hc : ∀ k < 16, Hex.upperDigit k ≠ c) (n : Nat) :
    Hex.upperDigit n ≠ c := by
  rw [← Hex.upperDigit_mod]
  exact hc _ (Nat.mod_lt n (by decide))

/-- A character that no escape needs is in an encoded text only if it was there before and is
kept. -/
theorem not_mem_encode {keep : Char → Bool} {c : Char} {s : List Char}
    (h : keep c = true → c ∉ s) (hpercent : '%' ≠ c)
    (hdigit : ∀ k < 16, Hex.upperDigit k ≠ c) : c ∉ encode keep s := by
  have hall : ∀ d ∈ encode keep s, d ≠ c := by
    refine forall_mem_encode ?_ hpercent (upperDigit_ne hdigit)
    rintro d hd hkeep rfl
    exact h hkeep hd
  exact fun hc => hall c hc rfl

theorem encode_eq_nil_iff {keep : Char → Bool} (hkeep : keep '%' = false) {s : List Char} :
    encode keep s = [] ↔ s = [] := by
  constructor
  · intro h
    have hs := (Spells.encode hkeep s).decode
    rw [h] at hs
    exact hs.symm
  · rintro rfl
    rfl

end OData.Percent
