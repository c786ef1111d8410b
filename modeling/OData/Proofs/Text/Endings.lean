import OData.Proofs.Text.Lines

/-!
# Texts on lines

`OnLines ls s` says that a text consists of some lines, each of which brings its own ending, so that
both endings may stand in one text. **The lines of such a text are these lines**, but for a last one
without characters and without an ending, which is no line (`lines_of_onLines`). Lines that are
joined with either ending are one case of it (`onLines_joinWith`).
-/

set_option autoImplicit false

namespace OData.Text

/-- The text has these lines, each with an ending of its own, the last one with or without. A
carriage return right before a line feed belongs to the ending. -/
inductive OnLines : List (List Char) → List Char → Prop
  | nil : OnLines [] []
  | last {l : List Char} : '\n' ∉ l → OnLines [l] l
  | feed {l s : List Char} {ls : List (List Char)} :
      '\n' ∉ l → l.getLast? ≠ some '\r' → OnLines ls s → OnLines (l :: ls) (l ++ '\n' :: s)
  | crlf {l s : List Char} {ls : List (List Char)} :
      '\n' ∉ l → OnLines ls s → OnLines (l :: ls) (l ++ '\r' :: '\n' :: s)

/-- **The lines of a text are those that it was put together from**, if the last one is not left
away because nothing of it is there. -/
theorem lines_of_onLines {ls : List (List Char)} {s : List Char} (h : OnLines ls s) :
    lines s = ls ∨ ls = lines s ++ [[]] := by
  induction h with
  | nil => exact .inl rfl
  | @last l hl =>
    by_cases hne : l = []
    · exact .inr (by rw [hne]; rfl)
    · exact .inl (lines_of_not_mem hl hne)
  | @feed l s ls hl hr _ ih =>
    rw [lines_append, lines_append_feed_of_not_mem hl hr]
    rcases ih with ih | ih
    · exact .inl (congrArg (l :: ·) ih)
    · exact .inr (congrArg (l :: ·) ih)
  | @crlf l s ls hl _ ih =>
    have htext : l ++ '\r' :: '\n' :: s = (l ++ ['\r']) ++ '\n' :: s := by simp
    have hline : lines (l ++ ['\r'] ++ ['\n']) = [l] := by
      rw [List.append_assoc]
      exact lines_append_crlf_of_not_mem hl
    rw [htext, lines_append, hline]
    rcases ih with ih | ih
    · exact .inl (congrArg (l :: ·) ih)
    · exact .inr (congrArg (l :: ·) ih)

/-- Lines that are joined with one of the endings throughout. -/
theorem onLines_joinWith {ending : List Char} (hending : ending = ['\n'] ∨ ending = ['\r', '\n'])
    {ls : List (List Char)} (h : ∀ l ∈ ls, '\n' ∉ l ∧ l.getLast? ≠ some '\r') :
    OnLines ls (joinWith ending ls) := by
  induction ls with
  | nil => exact .nil
  | cons l ls ih =>
    obtain ⟨⟨hl, hr⟩, hls⟩ := List.forall_mem_cons.mp h
    cases ls with
    | nil => exact .last hl
    | cons m ls =>
      rw [joinWith_cons_of_ne_nil _ _ (by simp), List.append_assoc]
      rcases hending with rfl | rfl
      · exact .feed hl hr (ih hls)
      · exact .crlf hl (ih hls)

/-- A text without a line feed at its end is joined from the pieces between its line feeds, also
without a last piece that has no characters. -/
theorem joinWith_of_splitOn {s : List Char} (hs : s.getLast? ≠ some '\n')
    {ps : List (List Char)} (h : splitOn '\n' s = ps ++ [[]]) : joinWith ['\n'] ps = s := by
  have hjoin := joinWith_splitOn '\n' s
  rw [h, joinWith_concat_nil] at hjoin
  rcases List.eq_nil_or_concat ps with rfl | ⟨qs, q, rfl⟩
  · exact hjoin
  · -- Every piece in front of the last one has a line feed behind it.
    rw [List.concat_eq_append, List.flatMap_append, List.flatMap_singleton,
      ← List.append_assoc] at hjoin
    rw [← hjoin, List.getLast?_concat] at hs
    exact absurd rfl hs

/-- **A text that ends the lines comes back whole**, whichever endings its own lines have got. -/
theorem exists_of_onLines_append {front : List (List Char)} {s text : List Char}
    (h : OnLines (front ++ splitOn '\n' s) text) (hs : s.getLast? ≠ some '\n') :
    ∃ rest, lines text = front ++ rest ∧ joinWith ['\n'] rest = s := by
  rcases lines_of_onLines h with hlines | hlines
  · exact ⟨_, hlines, joinWith_splitOn '\n' s⟩
  · rcases List.eq_nil_or_concat (splitOn '\n' s) with hsplit | ⟨ps, p, hsplit⟩
    · exact absurd hsplit (splitOn_ne_nil '\n' s)
    · rw [List.concat_eq_append] at hsplit
      rw [hsplit, ← List.append_assoc] at hlines
      obtain ⟨hfront, hp⟩ := List.append_inj' hlines rfl
      rw [List.singleton_inj.mp hp] at hsplit
      exact ⟨ps, hfront.symm, joinWith_of_splitOn hs hsplit⟩

end OData.Text
