/-!
# Cutting text into pieces

Three ways to cut: at every separator (`splitOn`), at the first one (`splitFirst`), and after every
line ending (`segments`, from which `lines` is made). The main statements are that cutting loses
nothing: the pieces put together again are the text.
-/

set_option autoImplicit false

namespace OData.Text

variable {α : Type}

/-! ## At every separator -/

/-- The pieces between the separators; one more piece than there are separators. -/
def splitOn [DecidableEq α] (sep : α) : List α → List (List α)
  | [] => [[]]
  | a :: r =>
    if a = sep then [] :: splitOn sep r
    else
      match splitOn sep r with
      | [] => [[a]]
      | p :: ps => (a :: p) :: ps

def joinWith (sep : List α) : List (List α) → List α
  | [] => []
  | [p] => p
  | p :: q :: ps => p ++ sep ++ joinWith sep (q :: ps)

theorem splitOn_ne_nil [DecidableEq α] (sep : α) (s : List α) : splitOn sep s ≠ [] := by
  cases s with
  | nil => simp [splitOn]
  | cons a r =>
    unfold splitOn
    split
    · simp
    · split <;> simp

theorem joinWith_cons_of_ne_nil (sep p : List α) {ps : List (List α)} (h : ps ≠ []) :
    joinWith sep (p :: ps) = p ++ sep ++ joinWith sep ps := by
  cases ps with
  | nil => exact absurd rfl h
  | cons q qs => rfl

/-- Cutting at a separator and joining with it again changes nothing. -/
theorem joinWith_splitOn [DecidableEq α] (sep : α) (s : List α) :
    joinWith [sep] (splitOn sep s) = s := by
  induction s with
  | nil => rfl
  | cons a r ih =>
    unfold splitOn
    split
    · next h => rw [joinWith_cons_of_ne_nil _ _ (splitOn_ne_nil sep r), ih, h]; rfl
    · split
      · next h => exact absurd h (splitOn_ne_nil sep r)
      · next p ps h =>
        rw [h] at ih
        cases ps with
        | nil => simp only [joinWith] at ih ⊢; rw [ih]
        | cons q qs => simp only [joinWith, List.cons_append] at ih ⊢; rw [ih]

/-! ## At the first separator -/

/-- What stands before and after the first separator, if there is one. -/
def splitFirst [DecidableEq α] (sep : α) : List α → Option (List α × List α)
  | [] => none
  | a :: r =>
    if a = sep then some ([], r)
    else (splitFirst sep r).map fun (before, after) => (a :: before, after)

theorem eq_of_splitFirst [DecidableEq α] {sep : α} {s before after : List α}
    (h : splitFirst sep s = some (before, after)) : s = before ++ sep :: after := by
  induction s generalizing before after with
  | nil => simp [splitFirst] at h
  | cons a r ih =>
    unfold splitFirst at h
    split at h
    · next ha => simp only [Option.some.injEq, Prod.mk.injEq] at h; simp [← h.1, ← h.2, ha]
    · obtain ⟨⟨b, c⟩, hb, he⟩ := Option.map_eq_some_iff.1 h
      simp only [Prod.mk.injEq] at he
      rw [ih hb, ← he.1, ← he.2]; rfl

/-! ## After every line ending -/

/-- The text cut after every member that satisfies `ends`. The last piece alone may lack an end,
and no piece is empty. -/
def segments (ends : α → Bool) : List α → List (List α)
  | [] => []
  | a :: r =>
    if ends a then [a] :: segments ends r
    else
      match segments ends r with
      | [] => [[a]]
      | s :: ss => (a :: s) :: ss

theorem flatten_segments (ends : α → Bool) (s : List α) : (segments ends s).flatten = s := by
  induction s with
  | nil => rfl
  | cons a r ih =>
    unfold segments
    split
    · simp [ih]
    · split
      · next h => rw [h] at ih; simp_all
      · next p ps h => rw [h] at ih; simp only [List.flatten_cons, List.cons_append] at ih ⊢; rw [ih]

/-- A list without its last member, where that is `a`. -/
def dropLastIf [DecidableEq α] (a : α) (s : List α) : List α :=
  if s.getLast? = some a then s.dropLast else s

/-- The lines of a text without their endings, which are a line feed with or without a carriage
return before it. A carriage return at the very end of the text belongs to its line. -/
def lines (s : List Char) : List (List Char) :=
  (segments (· == '\n') s).map fun line =>
    if line.getLast? = some '\n' then dropLastIf '\r' line.dropLast else line

end OData.Text
