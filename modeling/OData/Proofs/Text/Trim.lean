import Mathlib.Data.List.DropRight
import OData.Text.Blank

/-!
# Trimmed texts

Trimming leaves a text that neither begins nor ends with a blank (`isTrimmed_trim`), and it leaves
exactly such texts as they are (`trim_eq_self_iff`).
-/

set_option autoImplicit false

namespace OData.Text

/-- A text that neither begins nor ends with a blank. -/
def IsTrimmed (s : List Char) : Prop :=
  (∀ c ∈ s.head?, isBlank c = false) ∧ ∀ c ∈ s.getLast?, isBlank c = false

theorem isTrimmed_of_forall {s : List Char} (h : ∀ c ∈ s, isBlank c = false) : IsTrimmed s :=
  ⟨fun c hc => h c (List.mem_of_head? hc), fun c hc => h c (List.mem_of_getLast? hc)⟩

/-! ## Taking from the front, cutting off the end -/

/-- What is taken ends where something stands that is not. -/
theorem takeWhile_append_stop {α : Type} {p : α → Bool} {s t : List α} (hs : ∀ a ∈ s, p a = true)
    (ht : ∀ a ∈ t.head?, p a = false) : (s ++ t).takeWhile p = s := by
  have hstop : t.takeWhile p = [] := by
    cases t with
    | nil => rfl
    | cons a t => exact List.takeWhile_cons_of_neg (by simp [ht a rfl])
  rw [List.takeWhile_append_of_pos hs, hstop, List.append_nil]

theorem head?_dropWhile_false {α : Type} {p : α → Bool} {s : List α} :
    ∀ a ∈ (s.dropWhile p).head?, p a = false := by
  intro a ha
  have h := List.head?_dropWhile_not p s
  rw [Option.mem_def.mp ha] at h
  simpa using h

/-- Cutting off the end is `List.rdropWhile`, whose lemmas are used from here on. -/
theorem dropEndWhile_eq_rdropWhile {α : Type} (p : α → Bool) (s : List α) :
    dropEndWhile p s = s.rdropWhile p := rfl

/-- Those lemmas speak of the last member of a list that is not empty. -/
theorem forall_mem_getLast? {α : Type} {p : α → Bool} {s : List α} :
    (∀ a ∈ s.getLast?, p a = false) ↔ ∀ hne : s ≠ [], ¬ p (s.getLast hne) := by
  constructor
  · intro h hne
    simpa using h _ (List.getLast?_eq_some_getLast hne)
  · intro h a ha
    obtain ⟨hne, rfl⟩ := List.mem_getLast?_eq_getLast ha
    simpa using h hne

/-- Behind a member that is kept, only what follows it is cut. -/
theorem dropEndWhile_append {α : Type} {p : α → Bool} (s : List α) {t : List α}
    (h : ∀ a ∈ t, p a = true) : dropEndWhile p (s ++ t) = dropEndWhile p s := by
  have hall : ∀ a ∈ t.reverse, p a = true := by simpa using h
  rw [dropEndWhile, List.reverse_append, List.dropWhile_append_of_pos hall, dropEndWhile]

/-! ## Trimming -/

theorem dropWhile_of_isTrimmed {s : List Char} (h : IsTrimmed s) : s.dropWhile isBlank = s := by
  cases s with
  | nil => rfl
  | cons c r => exact List.dropWhile_cons_of_neg (by simp [h.1 c rfl])

theorem trimEnd_of_isTrimmed {s : List Char} (h : IsTrimmed s) : trimEnd s = s :=
  List.rdropWhile_eq_self_iff.mpr (forall_mem_getLast?.mp h.2)

/-- What stands in front of a trimmed text is kept with it. -/
theorem trimEnd_append_of_isTrimmed (s : List Char) {t : List Char} (hne : t ≠ [])
    (h : IsTrimmed t) : trimEnd (s ++ t) = s ++ t := by
  refine List.rdropWhile_eq_self_iff.mpr (forall_mem_getLast?.mp ?_)
  rw [List.getLast?_append, Option.or_of_isSome (by simpa using hne)]
  exact h.2

theorem isTrimmed_trim (s : List Char) : IsTrimmed (trim s) := by
  refine ⟨?_, forall_mem_getLast?.mpr (List.rdropWhile_last_not _ _)⟩
  intro c hc
  -- What is left of the text begins where the text without its first blanks does.
  obtain ⟨rest, hrest⟩ := List.rdropWhile_prefix isBlank (s.dropWhile isBlank)
  have hleft : ((s.dropWhile isBlank).rdropWhile isBlank).head? = some c := hc
  have hhead : (s.dropWhile isBlank).head? = some c := by
    rw [← hrest, List.head?_append, hleft, Option.some_or]
  exact head?_dropWhile_false c hhead

/-- **Trimming leaves exactly the trimmed texts as they are.** -/
theorem trim_eq_self_iff {s : List Char} : trim s = s ↔ IsTrimmed s := by
  constructor
  · intro h
    rw [← h]
    exact isTrimmed_trim s
  · intro h
    rw [trim, dropWhile_of_isTrimmed h, trimEnd_of_isTrimmed h]

theorem isTrimmed_of_trimmed {s : String} (h : trimmed s = s) : IsTrimmed s.toList := by
  refine trim_eq_self_iff.mp ?_
  rw [← String.toList_ofList (l := trim s.toList)]
  exact congrArg String.toList h

end OData.Text
