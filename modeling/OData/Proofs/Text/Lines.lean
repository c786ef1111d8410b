import OData.Text.Split

/-!
# Lines and their endings

What `segments`, `lines` and `joinWith` do to a text that was put together line by line. Two facts
carry the rest: cutting goes on afresh after a line feed (`lines_append`), and the lines of a text
to which one more ending is added are the pieces between the line feeds of that text, once every
ending in it is a single line feed (`lines_append_crlf`).
-/

set_option autoImplicit false

namespace OData.Text

variable {α : Type}

/-! ## Segments -/

theorem segments_ne_nil {ends : α → Bool} {s : List α} (h : s ≠ []) : segments ends s ≠ [] := by
  intro hn
  have hs := flatten_segments ends s
  rw [hn] at hs
  exact h hs.symm

theorem segments_append_end {ends : α → Bool} {s : List α} {e : α} (r : List α)
    (hs : ∀ a ∈ s, ends a = false) (he : ends e = true) :
    segments ends (s ++ e :: r) = (s ++ [e]) :: segments ends r := by
  induction s with
  | nil => simp only [List.nil_append, segments, he, if_true]
  | cons a s ih =>
    have ha : ends a = false := hs a (by simp)
    have hr := ih (fun b hb => hs b (by simp [hb]))
    simp only [List.cons_append, segments, ha, hr, Bool.false_eq_true, if_false]

/-- After an end, cutting goes on afresh. -/
theorem segments_append {ends : α → Bool} (s : List α) {e : α} (r : List α) (he : ends e = true) :
    segments ends (s ++ e :: r) = segments ends (s ++ [e]) ++ segments ends r := by
  induction s with
  | nil => simp only [List.nil_append, segments, he, if_true, List.singleton_append]
  | cons a s ih =>
    simp only [List.cons_append, segments]
    split
    · rw [ih, List.cons_append]
    · -- `a` joins the first piece, and there is one because of `e`.
      have hne : segments ends (s ++ [e]) ≠ [] := segments_ne_nil (by simp)
      obtain ⟨p, ps, hp⟩ := List.exists_cons_of_ne_nil hne
      rw [ih, hp]
      rfl

theorem segments_cons_of_not {ends : α → Bool} {a : α} {s : List α} {p : List α}
    {ps : List (List α)} (hs : segments ends s = p :: ps) (ha : ends a = false) :
    segments ends (a :: s) = (a :: p) :: ps := by
  simp only [segments, ha, Bool.false_eq_true, if_false, hs]

/-- The same for a run of members that are no ends. -/
theorem segments_append_of_not {ends : α → Bool} {r : List α} (s : List α)
    (hr : ∀ a ∈ r, ends a = false) (hne : r ≠ []) :
    segments ends (r ++ s) =
      match segments ends s with
      | [] => [r]
      | p :: ps => (r ++ p) :: ps := by
  induction r with
  | nil => exact absurd rfl hne
  | cons a r ih =>
    have ha : ends a = false := hr a (by simp)
    cases r with
    | nil =>
      rw [List.cons_append, List.nil_append, segments, if_neg (Bool.eq_false_iff.mp ha)]
      cases segments ends s <;> rfl
    | cons b r =>
      have hr' := ih (fun x hx => hr x (by simp [hx])) (by simp)
      rw [List.cons_append, segments, if_neg (Bool.eq_false_iff.mp ha), hr']
      cases segments ends s <;> rfl

theorem ne_nil_of_mem_segments {ends : α → Bool} {s p : List α} (hp : p ∈ segments ends s) :
    p ≠ [] := by
  induction s generalizing p with
  | nil => simp [segments] at hp
  | cons a s ih =>
    unfold segments at hp
    split at hp
    · rcases List.mem_cons.mp hp with rfl | hp
      · simp
      · exact ih hp
    · split at hp
      · rw [List.mem_singleton.mp hp]
        simp
      · next q qs hq =>
        rcases List.mem_cons.mp hp with rfl | hp
        · simp
        · exact ih (by simp [hq, hp])

theorem getLast?_of_mem_segments {ends : α → Bool} {s : List α} {e : α} (he : ends e = true)
    {p : List α} (hp : p ∈ segments ends (s ++ [e])) : ∃ q d, p = q ++ [d] ∧ ends d = true := by
  induction s generalizing p with
  | nil =>
    simp only [List.nil_append, segments, he, if_true, List.mem_singleton] at hp
    exact ⟨[], e, hp, he⟩
  | cons a s ih =>
    simp only [List.cons_append, segments] at hp
    split at hp
    · next ha =>
      rcases List.mem_cons.mp hp with rfl | hp
      · exact ⟨[], a, rfl, ha⟩
      · exact ih hp
    · split at hp
      · next hn => exact absurd hn (segments_ne_nil (by simp))
      · next q qs hq =>
        rcases List.mem_cons.mp hp with rfl | hp
        · obtain ⟨q', d, rfl, hd⟩ := ih (p := q) (by simp [hq])
          exact ⟨a :: q', d, rfl, hd⟩
        · exact ih (by simp [hq, hp])

/-- A text with a separator in it has a last one. -/
theorem eq_append_of_last [DecidableEq α] (e : α) (s : List α) :
    e ∉ s ∨ ∃ q t, s = q ++ e :: t ∧ e ∉ t := by
  induction s with
  | nil => exact .inl List.not_mem_nil
  | cons a s ih =>
    rcases ih with h | ⟨q, t, rfl, ht⟩
    · by_cases ha : a = e
      · exact .inr ⟨[], s, by rw [ha, List.nil_append], h⟩
      · refine .inl ?_
        rw [List.mem_cons, not_or]
        exact ⟨Ne.symm ha, h⟩
    · exact .inr ⟨a :: q, t, rfl, ht⟩

theorem filter_segments_of_not_mem [DecidableEq α] {e : α} {s : List α} (h : e ∉ s) :
    (segments (· == e) s).filter (·.getLast? == some e) = [] := by
  rw [List.filter_eq_nil_iff]
  intro p hp hlast
  have hmem : e ∈ (segments (· == e) s).flatten :=
    List.mem_flatten.mpr ⟨p, hp, List.mem_of_getLast? (eq_of_beq hlast)⟩
  rw [flatten_segments] at hmem
  exact h hmem

/-- **What has been cut off stays so.** However a text goes on, the pieces of it that have their
ending are the first pieces of the longer text. -/
theorem segments_append_eq_filter [DecidableEq α] (e : α) (s r : List α) :
    ∃ more, segments (· == e) (s ++ r) =
      (segments (· == e) s).filter (·.getLast? == some e) ++ more := by
  rcases eq_append_of_last e s with h | ⟨q, t, rfl, ht⟩
  · rw [filter_segments_of_not_mem h]
    exact ⟨_, rfl⟩
  · -- Of such a text, all pieces up to the last separator have their ending.
    have hcut : ∀ t, segments (· == e) (q ++ e :: t) =
        segments (· == e) (q ++ [e]) ++ segments (· == e) t := by
      intro t
      exact segments_append q t (beq_self_eq_true e)
    have hwhole : (segments (· == e) (q ++ [e])).filter (·.getLast? == some e) =
        segments (· == e) (q ++ [e]) := by
      rw [List.filter_eq_self]
      intro p hp
      have hlast : ∃ q' d, p = q' ++ [d] ∧ (d == e) = true := by
        refine getLast?_of_mem_segments ?_ hp
        exact beq_self_eq_true e
      obtain ⟨q', d, rfl, hd⟩ := hlast
      rw [List.getLast?_concat, eq_of_beq hd, beq_self_eq_true]
    rw [hcut, List.filter_append, hwhole, filter_segments_of_not_mem ht, List.append_nil,
      List.append_assoc, List.cons_append, hcut]
    exact ⟨_, rfl⟩

/-! ## Endings -/

/-- A text in which every carriage return with a line feed after it is left out. -/
def plainEndings : List Char → List Char
  | [] => []
  | '\r' :: '\n' :: r => '\n' :: plainEndings r
  | c :: r => c :: plainEndings r

theorem plainEndings_cons {c : Char} {s : List Char} (h : ¬ (c = '\r' ∧ s.head? = some '\n')) :
    plainEndings (c :: s) = c :: plainEndings s := by
  refine plainEndings.eq_3 c s ?_
  intro r hc hs
  exact h ⟨hc, by simp [hs]⟩

/-- A line without its ending. -/
def withoutEnding (line : List Char) : List Char :=
  if line.getLast? = some '\n' then dropLastIf '\r' line.dropLast else line

theorem lines_eq_map (s : List Char) : lines s = (segments (· == '\n') s).map withoutEnding := rfl

theorem withoutEnding_cons {c : Char} {p : List Char} (hp : p ≠ [])
    (h : ¬ (c = '\r' ∧ p.head? = some '\n')) :
    withoutEnding (c :: p) = c :: withoutEnding p := by
  obtain ⟨d, q, rfl⟩ := List.exists_cons_of_ne_nil hp
  unfold withoutEnding
  rw [List.getLast?_cons_cons, List.dropLast_cons_of_ne_nil (List.cons_ne_nil d q)]
  split
  · next hl =>
    cases q with
    | nil =>
      -- `p` is the line feed alone, so `c` would be part of its ending were it a carriage return.
      simp only [List.getLast?_singleton, Option.some.injEq] at hl
      have hr : c ≠ '\r' := by
        intro hr
        exact h ⟨hr, by simp [hl]⟩
      simp [dropLastIf, hr]
    | cons e q =>
      simp only [List.dropLast_cons_cons, dropLastIf, List.getLast?_cons_cons]
      split <;> simp
  · rfl

theorem lines_ne_nil {s : List Char} (h : s ≠ []) : lines s ≠ [] := by
  intro hn
  rw [lines_eq_map, List.map_eq_nil_iff] at hn
  exact segments_ne_nil h hn

theorem lines_cons {c : Char} {s l : List Char} {ls : List (List Char)} (hc : c ≠ '\n')
    (h : ¬ (c = '\r' ∧ s.head? = some '\n')) (hs : lines s = l :: ls) :
    lines (c :: s) = (c :: l) :: ls := by
  rw [lines_eq_map] at hs ⊢
  obtain ⟨p, ps, hp, rfl, rfl⟩ := List.map_eq_cons_iff.mp hs
  have hne : p ≠ [] := ne_nil_of_mem_segments (hp ▸ List.mem_cons_self)
  have hhead : p.head? = s.head? := by
    have hf := flatten_segments (· == '\n') s
    rw [hp, List.flatten_cons] at hf
    obtain ⟨d, q, rfl⟩ := List.exists_cons_of_ne_nil hne
    rw [← hf, List.cons_append, List.head?_cons, List.head?_cons]
  rw [segments_cons_of_not hp (beq_false_of_ne hc), List.map_cons,
    withoutEnding_cons hne (by rwa [hhead])]

theorem lines_feed (s : List Char) : lines ('\n' :: s) = [] :: lines s := by
  simp [lines, segments, dropLastIf]

theorem lines_crlf (s : List Char) : lines ('\r' :: '\n' :: s) = [] :: lines s := by
  simp [lines, segments, dropLastIf]

/-- **A text with one more ending.** Its lines are what stands between the line feeds, once every
ending in it is a line feed alone. -/
theorem lines_append_crlf (s : List Char) :
    lines (s ++ ['\r', '\n']) = splitOn '\n' (plainEndings s) := by
  fun_induction plainEndings s with
  | case1 => exact lines_crlf []
  | case2 r ih => rw [List.cons_append, List.cons_append, lines_crlf, ih, splitOn, if_pos rfl]
  | case3 c r hne ih =>
    by_cases hc : c = '\n'
    · rw [hc, List.cons_append, lines_feed, ih, splitOn, if_pos rfl]
    · have hend : ¬ (c = '\r' ∧ (r ++ ['\r', '\n']).head? = some '\n') := by
        rintro ⟨rfl, hh⟩
        cases r with
        | nil => exact absurd hh (by simp)
        | cons d r =>
          simp only [List.cons_append, List.head?_cons, Option.some.injEq] at hh
          exact hne r rfl (by rw [hh])
      rw [splitOn, if_neg hc]
      obtain ⟨l, ls, hl⟩ := List.exists_cons_of_ne_nil (splitOn_ne_nil '\n' (plainEndings r))
      rw [List.cons_append, lines_cons hc hend (ih.trans hl), hl]

theorem lines_append_crlf_of_not_mem {s : List Char} (h : '\n' ∉ s) :
    lines (s ++ ['\r', '\n']) = [s] := by
  rw [lines_append_crlf]
  induction s with
  | nil => rfl
  | cons c r ih =>
    have hc : c ≠ '\n' := by
      rintro rfl
      exact h (by simp)
    have hr : '\n' ∉ r := by
      intro hr
      exact h (by simp [hr])
    have hend : ¬ (c = '\r' ∧ r.head? = some '\n') := by
      rintro ⟨-, hh⟩
      exact hr (List.mem_of_mem_head? hh)
    rw [plainEndings_cons hend, splitOn, if_neg hc, ih hr]

/-- One more ending adds at most an empty line. Induction along `plainEndings`, as the endings of
`s` are the places where its lines begin afresh. -/
theorem lines_append_crlf_eq_append (s : List Char) :
    ∃ e, lines (s ++ ['\r', '\n']) = lines s ++ e ∧ ∀ l ∈ e, l = [] := by
  fun_induction plainEndings s with
  | case1 => exact ⟨[[]], rfl, by simp⟩
  | case2 r ih =>
    obtain ⟨e, he, hl⟩ := ih
    refine ⟨e, ?_, hl⟩
    rw [List.cons_append, List.cons_append, lines_crlf, lines_crlf, he, List.cons_append]
  | case3 c r hne ih =>
    obtain ⟨e, he, hl⟩ := ih
    by_cases hc : c = '\n'
    · refine ⟨e, ?_, hl⟩
      rw [hc, List.cons_append, lines_feed, lines_feed, he, List.cons_append]
    · cases r with
      | nil =>
        -- The last line had no ending, and the one that is added ends it.
        have hfeed : '\n' ∉ [c] := by simpa using Ne.symm hc
        refine ⟨[], ?_, by simp⟩
        rw [lines_append_crlf_of_not_mem hfeed]
        simp [lines, segments, hc]
      | cons d r =>
        have hend : ¬ (c = '\r' ∧ (d :: r).head? = some '\n') := by
          rintro ⟨rfl, hh⟩
          exact hne r rfl (by rw [Option.some.inj hh])
        have hend' : ¬ (c = '\r' ∧ (d :: r ++ ['\r', '\n']).head? = some '\n') := hend
        have hlines : lines (d :: r) ≠ [] := lines_ne_nil (by simp)
        obtain ⟨l, ls, hls⟩ := List.exists_cons_of_ne_nil hlines
        rw [hls, List.cons_append] at he
        refine ⟨e, ?_, hl⟩
        rw [List.cons_append, lines_cons hc hend' he, lines_cons hc hend hls]
        rfl

/-! ## Joined lines -/

theorem lines_append (s r : List Char) :
    lines (s ++ '\n' :: r) = lines (s ++ ['\n']) ++ lines r := by
  have hs : segments (· == '\n') (s ++ '\n' :: r) = _ := segments_append s r rfl
  rw [lines_eq_map, hs, List.map_append]
  rfl

theorem lines_flatMap_crlf (ts : List (List Char)) :
    lines (ts.flatMap (· ++ ['\r', '\n'])) = ts.flatMap fun t => lines (t ++ ['\r', '\n']) := by
  induction ts with
  | nil => rfl
  | cons t ts ih =>
    have hs : t ++ ['\r', '\n'] ++ ts.flatMap (· ++ ['\r', '\n'])
        = (t ++ ['\r']) ++ '\n' :: ts.flatMap (· ++ ['\r', '\n']) := by simp
    have ht : t ++ ['\r'] ++ ['\n'] = t ++ ['\r', '\n'] := by simp
    rw [List.flatMap_cons, List.flatMap_cons, hs, lines_append, ht, ih]

theorem joinWith_concat_nil (sep : List α) (ts : List (List α)) :
    joinWith sep (ts ++ [[]]) = ts.flatMap (· ++ sep) := by
  induction ts with
  | nil => rfl
  | cons t ts ih =>
    rw [List.cons_append, joinWith_cons_of_ne_nil _ _ (by simp), ih, List.flatMap_cons]

theorem joinWith_append (sep : List α) {ts : List (List α)} (h : ts ≠ []) :
    joinWith sep ts ++ sep = ts.flatMap (· ++ sep) := by
  induction ts with
  | nil => exact absurd rfl h
  | cons t ts ih =>
    cases ts with
    | nil => simp [joinWith]
    | cons u ts =>
      rw [joinWith_cons_of_ne_nil _ _ (by simp), List.append_assoc, ih (by simp)]
      rfl

/-- Joined lines that are read back are cut at every separator, and joining them with line feeds
makes every ending a line feed. -/
theorem joinWith_lines_append_crlf (s : List Char) :
    joinWith ['\n'] (lines (s ++ ['\r', '\n'])) = plainEndings s := by
  rw [lines_append_crlf, joinWith_splitOn]

/-! ## Single lines -/

theorem beq_feed_eq_false {l : List Char} (h : '\n' ∉ l) : ∀ c ∈ l, (c == '\n') = false := by
  intro c hc
  refine beq_false_of_ne ?_
  rintro rfl
  exact h hc

theorem lines_of_not_mem {l : List Char} (h : '\n' ∉ l) (hne : l ≠ []) : lines l = [l] := by
  have hlast : l.getLast? ≠ some '\n' := fun hl => h (List.mem_of_getLast? hl)
  rw [lines_eq_map, ← List.append_nil l, segments_append_of_not [] (beq_feed_eq_false h) hne]
  simp [segments, withoutEnding, hlast]

theorem lines_append_feed_of_not_mem {l : List Char} (h : '\n' ∉ l) (hr : l.getLast? ≠ some '\r') :
    lines (l ++ ['\n']) = [l] := by
  rw [lines_eq_map, segments_append_end [] (beq_feed_eq_false h) rfl]
  simp [segments, withoutEnding, dropLastIf, hr]

/-- Lines that have characters, and no part of an ending among them, are read back from the joined
text as they are. -/
theorem lines_joinWith {ls : List (List Char)}
    (h : ∀ l ∈ ls, l ≠ [] ∧ ∀ c ∈ l, c ≠ '\r' ∧ c ≠ '\n') : lines (joinWith ['\n'] ls) = ls := by
  induction ls with
  | nil => rfl
  | cons l ls ih =>
    obtain ⟨hne, hl⟩ := h l (by simp)
    have hfeed : '\n' ∉ l := fun hc => (hl '\n' hc).2 rfl
    have hr : l.getLast? ≠ some '\r' := fun hr => (hl '\r' (List.mem_of_getLast? hr)).1 rfl
    cases ls with
    | nil => exact lines_of_not_mem hfeed hne
    | cons m ls =>
      have hrest := ih (fun k hk => h k (by simp [hk]))
      rw [joinWith_cons_of_ne_nil _ _ (by simp), List.append_assoc, List.singleton_append,
        lines_append, hrest, lines_append_feed_of_not_mem hfeed hr, List.singleton_append]

end OData.Text
