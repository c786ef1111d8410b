import Mathlib.Data.List.TakeWhile
import OData.Proofs.Multipart.HeaderLines

/-!
# Payloads of entries

The payload of an entry is read in two ways: as a response, from its first line that is not blank,
and for its Content-ID, from its second line. The response begins with a status line
(`Entry.exists_of_answer`), which is never taken for a header that names a request
(`get?_headersOf_statusLine`). **So both ways find the same Content-ID behind at most one blank
line, and the second finds none behind more** (`Entry.contentId?_of_answer`).
-/

set_option autoImplicit false

namespace OData.Multipart

open OData.Text

/-! ## Status lines -/

theorem exists_of_statusLine? {line : List Char} {r : List Char × List Char}
    (h : statusLine? line = some r) : ∃ rest, line = "HTTP/".toList ++ rest := by
  simp only [statusLine?, Option.bind_eq_bind, Option.bind_eq_some_iff] at h
  obtain ⟨rest, hrest, -⟩ := h
  exact ⟨rest, dropPrefix?_eq_some_iff.mp hrest⟩

theorem exists_of_statusLine?_trimEnd {line : List Char} {r : List Char × List Char}
    (h : statusLine? (trimEnd line) = some r) : ∃ rest, line = "HTTP/".toList ++ rest := by
  obtain ⟨rest, hrest⟩ := exists_of_statusLine? h
  obtain ⟨behind, hbehind⟩ := List.rdropWhile_prefix isBlank line
  refine ⟨rest ++ behind, ?_⟩
  rw [← List.append_assoc, ← hrest]
  exact hbehind.symm

/-- What begins like a status line is not the name of a header that names a request. -/
theorem sameName_of_prefix {s r : List Char} (h : s <+: 'H' :: r) :
    sameName "Content-ID" (String.ofList s) = false := by
  cases s with
  | nil => decide
  | cons c s =>
    obtain ⟨rfl, -⟩ := List.cons_prefix_cons.mp h
    refine beq_false_of_ne ?_
    intro hlower
    have hletters := congrArg String.toList hlower
    simp only [lower, String.toList_ofList, List.map_cons] at hletters
    exact absurd (List.cons.inj hletters).1 (by decide)

/-- **A status line is no header that names a request**, whatever colons it holds. -/
theorem get?_headersOf_statusLine (rest : List Char) (ls : List (List Char)) :
    (headersOf (("HTTP/".toList ++ rest) :: ls)).get? "Content-ID" =
      (headersOf ls).get? "Content-ID" := by
  refine get?_headersOf_cons rfl ?_ ls
  intro p hp
  rw [headerLine?, splitFirst_append (by decide), Option.map_map] at hp
  obtain ⟨⟨before, after⟩, -, rfl⟩ := Option.map_eq_some_iff.mp hp
  exact sameName_of_prefix (List.rdropWhile_prefix isBlank ("HTTP/".toList ++ before))

/-! ## The two readings -/

namespace Entry

/-- What is read from a payload: its lines from the status line on, which is the first that is not
blank. -/
theorem exists_of_answer {e : Entry} {a : Answer} (h : e.answer = .ok a) :
    ∃ rest ls, (lines e.payload.toList).dropWhile isAllBlank = ("HTTP/".toList ++ rest) :: ls ∧
      a.headers = (headersOf ls).insert "Content-Type" (contentType (headersOf ls)) := by
  unfold answer at h
  dsimp only at h
  generalize (lines e.payload.toList).dropWhile isAllBlank = ls at h ⊢
  split at h
  · cases h
  · next code reason hline =>
    split at h
    · cases h
    · next status hstatus =>
      cases h
      obtain ⟨rest, hrest⟩ := exists_of_statusLine?_trimEnd hline
      cases ls with
      | nil => cases hrest
      | cons line ls => exact ⟨rest, ls, congrArg (· :: ls) hrest, rfl⟩

/-- The blank lines before the first other line of the payload. -/
def blanksInFront (e : Entry) : List (List Char) := (lines e.payload.toList).takeWhile isAllBlank

/-- The number that a Content-ID spells, if it fits 32 bits. -/
def idOf? (value : String) : Option Nat := readUnsigned (UInt32.size - 1) value.toList

theorem contentId?_of_head {e : Entry}
    (hhead : (headersOf (lines e.head.toList)).get? "Content-ID" = none) :
    e.contentId? =
      ((headersOf ((lines e.payload.toList).drop 1)).get? "Content-ID").bind idOf? := by
  rw [contentId?, hhead, Option.none_or]
  refine Option.bind_congr ?_
  intro value hvalue
  rw [trim_eq_self_iff.mpr (isTrimmed_of_get? hvalue)]
  rfl

/-- **The Content-ID of an entry without one in its head is that of the response inside it**, as far
as it can be read as a number, if there is at most one blank line before the response. Behind more
than one none is found. -/
theorem contentId?_of_answer {e : Entry} {a : Answer}
    (hhead : (headersOf (lines e.head.toList)).get? "Content-ID" = none) (h : e.answer = .ok a) :
    e.contentId? = if e.blanksInFront.length ≤ 1 then (a.headers.get? "Content-ID").bind idOf?
      else none := by
  obtain ⟨rest, ls, hls, hheaders⟩ := exists_of_answer h
  have hid : a.headers.get? "Content-ID" = (headersOf ls).get? "Content-ID" := by
    rw [hheaders, Headers.get?, Headers.getAll_insert, if_neg (by decide)]
    rfl
  have hlines : lines e.payload.toList = e.blanksInFront ++ ("HTTP/".toList ++ rest) :: ls := by
    rw [← hls]
    exact List.takeWhile_append_dropWhile.symm
  have hblank : ∀ l ∈ e.blanksInFront, isAllBlank l = true := by
    intro l hl
    exact List.mem_takeWhile_imp hl
  rw [contentId?_of_head hhead, hlines, hid]
  -- Only the first line is passed over, be it the status line or a blank one.
  generalize e.blanksInFront = blanks at hblank ⊢
  rcases blanks with _ | ⟨first, _ | ⟨second, blanks⟩⟩
  · rfl
  · exact congrArg (Option.bind · idOf?) (get?_headersOf_statusLine rest ls)
  · rw [if_neg (by simp)]
    exact congrArg (fun h => (Headers.get? h "Content-ID").bind idOf?)
      (headersOf_of_blank (hblank second (by simp)) _)

/-- A response with a Content-ID, behind some text. -/
def numberedEntry (front : String) : Entry :=
  ⟨"", front ++ "HTTP/1.1 200 OK\nContent-ID: 7\n\nbody"⟩

theorem contentId?_of_answer_numberedEntry :
    (headersOf (lines (numberedEntry "\n").head.toList)).get? "Content-ID" = none ∧
      ∃ a, (numberedEntry "\n").answer = .ok a ∧ a.headers.get? "Content-ID" = some "7" ∧
        (numberedEntry "\n").contentId? = some 7 := by
  have hhead : (headersOf (lines (numberedEntry "\n").head.toList)).get? "Content-ID" = none := rfl
  have hanswer : (numberedEntry "\n").answer = .ok _ := rfl
  refine ⟨hhead, _, hanswer, by decide +kernel, ?_⟩
  rw [contentId?_of_answer hhead hanswer]
  decide +kernel

/-- With a second blank line in front the number is still in the response, but no longer found. -/
theorem contentId?_of_blanksInFront :
    (headersOf (lines (numberedEntry "\n\n").head.toList)).get? "Content-ID" = none ∧
      ∃ a, (numberedEntry "\n\n").answer = .ok a ∧
        (a.headers.get? "Content-ID").bind idOf? = some 7 ∧
        (numberedEntry "\n\n").contentId? = none := by
  have hanswer : (numberedEntry "\n\n").answer = .ok _ := rfl
  refine ⟨rfl, _, hanswer, by decide +kernel, by decide +kernel⟩

end Entry

end OData.Multipart
