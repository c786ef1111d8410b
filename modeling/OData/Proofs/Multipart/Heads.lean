import OData.Batch
import OData.Proofs.MediaType
import OData.Proofs.Multipart.Document
import OData.Proofs.Multipart.HeaderLines

/-!
# Heads that a batch writes

Two kinds of heads stand in the body of a batch: one with a boundary that is made from a guid, and
one with a Content-ID. **The reader finds the boundary in the first**
(`boundaryIn?_changesetHead`), and **in the second no boundary but the number**
(`boundaryIn?_itemHead`, `contentId?_itemHead`).
-/

set_option autoImplicit false

namespace OData

open OData.Text

namespace Multipart

def changesetHead (boundary : String) : List (List Char) :=
  ["Content-Type: multipart/mixed;boundary=".toList ++ boundary.toList]

def itemHead (contentId : Nat) : List (List Char) :=
  ["Content-Type: application/http".toList, "Content-Transfer-Encoding: binary".toList,
    "Content-ID: ".toList ++ digits contentId]

theorem lines_changesetHead {boundary : String}
    (hb : ∀ c ∈ boundary.toList, MediaType.isTokenChar c = true) :
    lines (joinWith ['\n'] (changesetHead boundary)) = changesetHead boundary := by
  refine lines_joinWith ?_
  intro l hl
  rw [List.mem_singleton.mp hl]
  refine ⟨by simp, List.forall_mem_append.mpr ⟨by simp, ?_⟩⟩
  intro c hc
  exact MediaType.ne_of_isTokenChar (hb c hc)

/-- **The boundary of a changeset is found in its head.** -/
theorem boundaryIn?_changesetHead {boundary : String}
    (hb : ∀ c ∈ boundary.toList, MediaType.isTokenChar c = true) :
    boundaryIn? (changesetHead boundary) = some boundary := by
  have htype : String.ofList ("multipart/mixed;boundary=".toList ++ boundary.toList) =
      "multipart/mixed;boundary=" ++ boundary := by
    rw [← String.toList_append, String.ofList_toList]
  have htrim : trim ("multipart/mixed;boundary=".toList ++ boundary.toList) =
      "multipart/mixed;boundary=".toList ++ boundary.toList := by
    refine trim_eq_self (List.forall_mem_append.mpr ⟨by simp [isBlank], ?_⟩)
    intro c hc
    exact MediaType.isBlank_of_isTokenChar (hb c hc)
  have hpairs : (changesetHead boundary).filterMap headerLine? =
      [("Content-Type", String.ofList (trim (' ' ::
        ("multipart/mixed;boundary=".toList ++ boundary.toList))))] := rfl
  have hblank : ∀ l ∈ changesetHead boundary, isAllBlank l = false := by
    intro l hl
    rw [List.mem_singleton.mp hl]
    rfl
  rw [boundaryIn?, boundaryOf?, lines_changesetHead hb, headersOf_of_forall hblank, hpairs,
    trim_blank_cons, htrim, htype, Headers.get?_ofPairs_cons, if_pos (sameName_self _),
    Option.bind_some, MediaType.parse?_boundary hb]
  rfl

theorem lines_itemHead (n : Nat) : lines (joinWith ['\n'] (itemHead n)) = itemHead n := by
  refine lines_joinWith ?_
  intro l hl
  simp only [itemHead, List.mem_cons, List.not_mem_nil, or_false] at hl
  rcases hl with rfl | rfl | rfl
  · simp
  · simp
  · refine ⟨by simp, List.forall_mem_append.mpr ⟨by simp, ?_⟩⟩
    intro c hc
    exact MediaType.ne_of_isTokenChar (MediaType.isTokenChar_of_mem_digits hc)

theorem headersOf_itemHead (n : Nat) :
    headersOf (lines (joinWith ['\n'] (itemHead n))) =
      .ofPairs [("Content-Type", "application/http"), ("Content-Transfer-Encoding", "binary"),
        ("Content-ID", decimal n)] := by
  have hpairs : (itemHead n).filterMap headerLine? =
      [("Content-Type", "application/http"), ("Content-Transfer-Encoding", "binary"),
        ("Content-ID", String.ofList (trim (' ' :: digits n)))] := rfl
  have hblank : ∀ l ∈ itemHead n, isAllBlank l = false := by
    intro l hl
    simp only [itemHead, List.mem_cons, List.not_mem_nil, or_false] at hl
    rcases hl with rfl | rfl | rfl <;> rfl
  rw [lines_itemHead, headersOf_of_forall hblank, hpairs, trim_blank_cons, trim_digits]
  rfl

theorem boundaryIn?_itemHead (n : Nat) : boundaryIn? (itemHead n) = none := by
  have htype : (MediaType.parse? "application/http").bind (·.parameter? "boundary") = none := by
    decide
  rw [boundaryIn?, boundaryOf?, headersOf_itemHead, Headers.get?_ofPairs_cons,
    if_pos (sameName_self _)]
  exact htype

/-- **The Content-ID is found in the head**, if it is in the range of the counter. -/
theorem contentId?_itemHead {n : Nat} (hn : n < UInt32.size) (payload : String) :
    (⟨textOf (itemHead n), payload⟩ : Entry).contentId? = some n := by
  have hid : (headersOf (lines (textOf (itemHead n)).toList)).get? "Content-ID" =
      some (decimal n) := by
    rw [textOf, String.toList_ofList, headersOf_itemHead, Headers.get?_ofPairs_cons,
      if_neg (by decide), Headers.get?_ofPairs_cons, if_neg (by decide), Headers.get?_ofPairs_cons,
      if_pos (sameName_self _)]
  rw [Entry.contentId?, hid, Option.some_or, Option.bind_some, toList_decimal,
    trim_digits, readUnsigned_digits (Nat.le_sub_one_of_lt hn)]

end Multipart

end OData
