import OData.Multipart.Entry
import OData.Proofs.Headers
import OData.Proofs.Text.Numerals
import OData.Proofs.Text.Pieces
import OData.Proofs.Text.Trim

/-!
# Lines of headers

Which headers are read from lines. A name without a colon, a colon and a value are a header
(`headerLine?_pair`), and **the lines up to the first blank one are read, and no others**
(`headersOf_append`).
-/

set_option autoImplicit false

namespace OData.Multipart

open OData.Text

theorem isAllBlank_of_mem {l : List Char} {c : Char} (hl : c ∈ l) (hc : isBlank c = false) :
    isAllBlank l = false := by
  rw [isAllBlank, List.all_eq_false]
  exact ⟨c, hl, by simp [hc]⟩

/-- A name and a value are found where the name ends. -/
theorem headerLine?_pair {name : String} (h : ':' ∉ name.toList) (value : String) :
    headerLine? (name ++ ": " ++ value).toList = some (trimmed name, trimmed value) := by
  have htext : (name ++ ": " ++ value).toList = name.toList ++ ':' :: ' ' :: value.toList := by
    rw [String.toList_append, String.toList_append, List.append_assoc]
    rfl
  rw [headerLine?, htext, splitFirst_append_cons h, Option.map_some]
  dsimp only
  rw [trim_blank_cons]
  rfl

/-! ## The lines that are read -/

theorem headersOf_append {ls : List (List Char)} (hls : ∀ l ∈ ls, isAllBlank l = false)
    {rest : List (List Char)} (hrest : ∀ l ∈ rest.head?, isAllBlank l = true) :
    headersOf (ls ++ rest) = .ofPairs (ls.filterMap headerLine?) := by
  have hread : ∀ l ∈ ls, (!isAllBlank l) = true := by
    intro l hl
    simp [hls l hl]
  have hstop : ∀ l ∈ rest.head?, (!isAllBlank l) = false := by
    intro l hl
    simp [hrest l hl]
  rw [headersOf, takeWhile_append_stop hread hstop]

theorem headersOf_of_forall {ls : List (List Char)} (h : ∀ l ∈ ls, isAllBlank l = false) :
    headersOf ls = .ofPairs (ls.filterMap headerLine?) := by
  have happend : headersOf (ls ++ []) = _ := headersOf_append h (by simp)
  rwa [List.append_nil] at happend

theorem headersOf_of_blank {l : List Char} (hl : isAllBlank l = true) (ls : List (List Char)) :
    headersOf (l :: ls) = .empty := by
  have happend : headersOf ([] ++ l :: ls) = _ := headersOf_append (by simp) (by simpa using hl)
  exact happend

/-- A line that is no header of a name has no part in its values. -/
theorem get?_headersOf_cons {l : List Char} (hl : isAllBlank l = false) {name : String}
    (hname : ∀ p ∈ headerLine? l, sameName name p.1 = false) (ls : List (List Char)) :
    (headersOf (l :: ls)).get? name = (headersOf ls).get? name := by
  have htake : (l :: ls).takeWhile (!isAllBlank ·) = l :: ls.takeWhile (!isAllBlank ·) :=
    List.takeWhile_cons_of_pos (by simp [hl])
  rw [headersOf, headersOf, htake, List.filterMap_cons]
  split
  · rfl
  · next p hp => rw [Headers.get?_ofPairs_cons, if_neg (by simp [hname p hp])]

/-- Values that are read have no blanks around them. -/
theorem isTrimmed_of_get? {ls : List (List Char)} {name value : String}
    (h : (headersOf ls).get? name = some value) : IsTrimmed value.toList := by
  rw [headersOf, Headers.get?_ofPairs] at h
  obtain ⟨p, hp, rfl⟩ := Option.map_eq_some_iff.mp h
  obtain ⟨l, -, hl⟩ := List.mem_filterMap.mp (List.mem_of_find?_eq_some hp)
  obtain ⟨⟨name', value'⟩, -, rfl⟩ := Option.map_eq_some_iff.mp hl
  rw [String.toList_ofList]
  exact isTrimmed_trim value'

end OData.Multipart
