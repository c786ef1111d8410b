import Mathlib.Data.List.TakeWhile
import OData.Guid
import OData.MediaType
import OData.Proofs.Text.Numerals

/-!
# Tokens in media types

A boundary may stand in a media type without quotes if it is a token. Guids and numerals are tokens
(`Guid.isTokenChar_of_mem_render`, `isTokenChar_of_mem_digits`), no character of a token is a blank
or ends a line, and **a multipart type with a token for its boundary names that boundary**
(`parse?_boundary`).
-/

set_option autoImplicit false

namespace OData

open OData.Text

namespace MediaType

/-! ## Characters of tokens -/

/-- Letters and digits are between `0` and `z`, with other characters among them. -/
theorem toNat_of_isAlphanum {c : Char} (h : c.isAlphanum = true) :
    48 ≤ c.toNat ∧ c.toNat ≤ 122 := by
  rcases Bool.or_eq_true_iff.mp h with h | h
  · rcases Bool.or_eq_true_iff.mp h with h | h
    · have hc : 65 ≤ c.toNat ∧ c.toNat ≤ 90 :=
        (of_decide_eq_true h).imp UInt32.le_iff_toNat_le.mp UInt32.le_iff_toNat_le.mp
      omega
    · obtain ⟨hlow, hhigh⟩ := Bool.and_eq_true_iff.mp h
      have hlow : 97 ≤ c.toNat := UInt32.le_iff_toNat_le.mp (of_decide_eq_true hlow)
      have hhigh : c.toNat ≤ 122 := UInt32.le_iff_toNat_le.mp (of_decide_eq_true hhigh)
      omega
  · have hc : 48 ≤ c.toNat ∧ c.toNat ≤ 57 := Char.isDigit_iff_toNat.mp h
    omega

/-- A token has no blanks, so none is cut off it. -/
theorem isBlank_of_isTokenChar {c : Char} (h : isTokenChar c = true) : isBlank c = false := by
  rcases Bool.or_eq_true_iff.mp h with h | h
  · -- Every blank is below the digits or above the letters.
    obtain ⟨hlow, hhigh⟩ := toNat_of_isAlphanum h
    simp only [isBlank, Bool.or_eq_false_iff, Bool.and_eq_false_iff, decide_eq_false_iff_not,
      beq_eq_false_iff_ne]
    omega
  · have hall : ∀ c ∈ "!#$%&'*+-.^_`|~".toList, isBlank c = false := by simp [isBlank]
    exact hall c (List.contains_iff_mem.mp h)

/-- A token stays on its line. -/
theorem ne_of_isTokenChar {c : Char} (h : isTokenChar c = true) : c ≠ '\r' ∧ c ≠ '\n' := by
  constructor
  · rintro rfl
    exact absurd h (by decide)
  · rintro rfl
    exact absurd h (by decide)

/-- Digits of guids are characters of tokens. -/
theorem isTokenChar_lowerDigit (n : Nat) : isTokenChar (Hex.lowerDigit n) = true := by
  have hall : ∀ k < 16, isTokenChar (Hex.lowerDigit k) = true := by decide
  rw [← Hex.lowerDigit_mod]
  exact hall _ (Nat.mod_lt n (by decide))

theorem isTokenChar_of_mem_digits {n : Nat} {c : Char} (h : c ∈ digits n) :
    isTokenChar c = true := by
  have hall : ∀ c ∈ "0123456789".toList, isTokenChar c = true := by simp [isTokenChar]
  exact hall c (mem_digits h)

/-! ## Reading a token -/

/-- A token is read to the end of the text if there is nothing else in it. -/
theorem token_eq_self {s : List Char} (h : ∀ c ∈ s, isTokenChar c = true) : token s = (s, []) := by
  rw [token, List.takeWhile_eq_self_iff.mpr h, List.dropWhile_eq_nil_iff.mpr h]

/-- A value that is a token needs no quotes. -/
theorem value_token {v : List Char} (hv : ∀ c ∈ v, isTokenChar c = true) :
    value v = some (v, []) := by
  unfold value
  split
  · -- A quotation mark is no character of a token.
    exact absurd (hv '"' (by simp)) (by decide)
  · rw [token_eq_self hv]

theorem parameter_boundary {v : List Char} (hv : ∀ c ∈ v, isTokenChar c = true) :
    parameter ("boundary=".toList ++ v) = some (("boundary".toList, v), []) := by
  have ht : token ("boundary=".toList ++ v) = ("boundary".toList, '=' :: v) := rfl
  rw [parameter, ht]
  show (value v).map (fun p => (("boundary".toList, p.1), p.2)) = _
  rw [value_token hv]
  rfl

theorem parametersOf_boundary {v : List Char} (hv : ∀ c ∈ v, isTokenChar c = true) :
    parametersOf ("boundary=".toList ++ v) = some [("boundary".toList, v)] := by
  have hblank : ("boundary=".toList ++ v).dropWhile (· == ' ') = "boundary=".toList ++ v := rfl
  have hnil : parametersOf [] = some [] := by
    rw [parametersOf]
    rfl
  rw [parametersOf, hblank, if_neg (by simp)]
  split
  · next hp =>
    rw [parameter_boundary hv] at hp
    cases hp
  · next hp =>
    rw [parameter_boundary hv] at hp
    cases hp
    rw [hnil]
    rfl

/-- **A multipart type names its boundary**, if that is a token. -/
theorem parse?_boundary {v : String} (hv : ∀ c ∈ v.toList, isTokenChar c = true) :
    parse? ("multipart/mixed;boundary=" ++ v) = some ⟨"multipart/mixed", [("boundary", v)]⟩ := by
  have hs : ("multipart/mixed;boundary=" ++ v).toList =
      "multipart/mixed;boundary=".toList ++ v.toList := String.toList_append
  have hne : "multipart/mixed;boundary=" ++ v ≠ "*/*" := by
    intro h
    have hl := congrArg String.toList h
    rw [hs] at hl
    cases hl
  have hessence : lower "multipart/mixed" = "multipart/mixed" := by decide
  have hname : lower (String.ofList "boundary".toList) = "boundary" := by decide
  unfold parse?
  rw [if_neg hne, hs]
  -- Both tokens of the type are at hand, so only the parameters are left to read.
  show (parametersOf ("boundary=".toList ++ v.toList)).map (fun ps =>
    (⟨lower "multipart/mixed", ps.map fun p => (lower (String.ofList p.1), String.ofList p.2)⟩ :
      MediaType)) = _
  rw [parametersOf_boundary hv, Option.map_some, List.map_singleton, hessence]
  dsimp only
  rw [hname, String.ofList_toList]

end MediaType

/-! ## Guids -/

namespace Guid

/-- A number of a fixed width is written in hexadecimal digits. -/
theorem mem_fixed {width n : Nat} {c : Char} (h : c ∈ Hex.fixed width n) :
    ∃ k, c = Hex.lowerDigit k := by
  induction width generalizing n with
  | zero => exact absurd h List.not_mem_nil
  | succ width ih =>
    rcases List.mem_append.mp h with h | h
    · exact ih h
    · exact ⟨n, List.mem_singleton.mp h⟩

/-- Hyphens are put between characters that were there. -/
theorem mem_hyphenate {ns : List Nat} {ds : List Char} {c : Char} (h : c ∈ hyphenate ns ds) :
    c = '-' ∨ c ∈ ds := by
  fun_induction hyphenate ns ds with
  | case1 ds => exact .inr h
  | case2 ds n => exact .inr h
  | case3 ds n m ns ih =>
    rcases List.mem_append.mp h with h | h
    · exact .inr (List.mem_of_mem_take h)
    rcases List.mem_cons.mp h with h | h
    · exact .inl h
    · exact (ih h).imp_right List.mem_of_mem_drop

/-- A guid is written as a token. -/
theorem isTokenChar_of_mem_render {g : Guid} {c : Char} (h : c ∈ g.render.toList) :
    MediaType.isTokenChar c = true := by
  rw [render, String.toList_ofList] at h
  rcases mem_hyphenate h with rfl | h
  · decide
  · obtain ⟨k, rfl⟩ := (List.mem_append.mp h).elim mem_fixed mem_fixed
    exact MediaType.isTokenChar_lowerDigit k

end Guid

end OData
