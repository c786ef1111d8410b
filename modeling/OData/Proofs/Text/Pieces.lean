import OData.Text.Split

/-!
# Cutting what was put together

Pieces that do not hold the separator come back when the text made of them is cut, at every
separator (`splitOn_flatMap`) or at the first one (`splitFirst_append_cons`).
-/

set_option autoImplicit false

namespace OData.Text

variable {α : Type} {sep : α} {p : List α}

/-- Joined pieces with one more separator in front. -/
theorem cons_joinWith {ps : List (List α)} (h : ps ≠ []) :
    sep :: joinWith [sep] ps = ps.flatMap (sep :: ·) := by
  induction ps with
  | nil => exact absurd rfl h
  | cons q ps ih =>
    cases ps with
    | nil => simp [joinWith]
    | cons q' ps =>
      rw [List.flatMap_cons, ← ih (by simp)]
      simp [joinWith]

/-! ## At every separator -/

variable [DecidableEq α]

theorem splitOn_cons_self (r : List α) : splitOn sep (sep :: r) = [] :: splitOn sep r := by
  rw [splitOn, if_pos rfl]

theorem splitOn_cons_of_ne {a : α} (h : a ≠ sep) {r q : List α} {qs : List (List α)}
    (hr : splitOn sep r = q :: qs) : splitOn sep (a :: r) = (a :: q) :: qs := by
  rw [splitOn, if_neg h, hr]

theorem splitOn_append {r q : List α} {qs : List (List α)} (h : sep ∉ p)
    (hr : splitOn sep r = q :: qs) : splitOn sep (p ++ r) = (p ++ q) :: qs := by
  induction p with
  | nil => exact hr
  | cons a p ih =>
    have ha : a ≠ sep := fun ha => h (by simp [ha])
    exact splitOn_cons_of_ne ha (ih (fun hp => h (List.mem_cons_of_mem _ hp)))

theorem splitOn_append_cons (h : sep ∉ p) (r : List α) :
    splitOn sep (p ++ sep :: r) = p :: splitOn sep r := by
  rw [splitOn_append h (splitOn_cons_self r), List.append_nil]

theorem splitOn_of_not_mem (h : sep ∉ p) : splitOn sep p = [p] := by
  have hnil := splitOn_append (r := []) h rfl
  rwa [List.append_nil] at hnil

theorem splitOn_flatMap {ps : List (List α)} (h : ∀ q ∈ ps, sep ∉ q) :
    splitOn sep (ps.flatMap (sep :: ·)) = [] :: ps := by
  induction ps with
  | nil => rfl
  | cons q ps ih =>
    have hrest := ih fun q hq => h q (List.mem_cons_of_mem _ hq)
    rw [List.flatMap_cons, List.cons_append, splitOn_cons_self,
      splitOn_append (h q List.mem_cons_self) hrest, List.append_nil]

/-- No piece holds the separator, and all that it holds is in the text. -/
theorem mem_splitOn {s q : List α} (h : q ∈ splitOn sep s) : sep ∉ q ∧ q ⊆ s := by
  induction s generalizing q with
  | nil =>
    rw [List.mem_singleton.mp h]
    exact ⟨List.not_mem_nil, List.Subset.refl _⟩
  | cons a s ih =>
    unfold splitOn at h
    split at h
    · rcases List.mem_cons.mp h with rfl | h
      · exact ⟨List.not_mem_nil, List.nil_subset _⟩
      · exact ⟨(ih h).1, List.subset_cons_of_subset a (ih h).2⟩
    · next ha =>
      split at h
      · next hnil => exact absurd hnil (splitOn_ne_nil sep s)
      · next p ps hp =>
        rw [hp] at ih
        rcases List.mem_cons.mp h with rfl | h
        · obtain ⟨hsep, hsub⟩ := ih List.mem_cons_self
          exact ⟨by simp [Ne.symm ha, hsep], List.cons_subset_cons a hsub⟩
        · obtain ⟨hsep, hsub⟩ := ih (List.mem_cons_of_mem p h)
          exact ⟨hsep, List.subset_cons_of_subset a hsub⟩

/-- **Pieces that are joined come back**, if there are any. -/
theorem splitOn_joinWith {ps : List (List α)} (hne : ps ≠ []) (h : ∀ q ∈ ps, sep ∉ q) :
    splitOn sep (joinWith [sep] ps) = ps := by
  have hcut := splitOn_flatMap h
  rw [← cons_joinWith hne, splitOn_cons_self] at hcut
  exact (List.cons.inj hcut).2

/-- Behind pieces and one more separator, cutting goes on with what follows. -/
theorem splitOn_flatMap_append {ps : List (List α)} (h : ∀ q ∈ ps, sep ∉ q) (r : List α) :
    splitOn sep (ps.flatMap (sep :: ·) ++ sep :: r) = [] :: (ps ++ splitOn sep r) := by
  induction ps with
  | nil => exact splitOn_cons_self r
  | cons q ps ih =>
    have hrest := ih fun q hq => h q (List.mem_cons_of_mem _ hq)
    rw [List.flatMap_cons, List.cons_append, List.cons_append, List.append_assoc,
      splitOn_cons_self, splitOn_append (h q List.mem_cons_self) hrest, List.append_nil,
      List.cons_append]

theorem splitOn_append_sep (s r : List α) :
    splitOn sep (s ++ sep :: r) = splitOn sep s ++ splitOn sep r := by
  induction s with
  | nil => exact splitOn_cons_self r
  | cons a s ih =>
    by_cases ha : a = sep
    · rw [ha, List.cons_append, splitOn_cons_self, splitOn_cons_self, ih, List.cons_append]
    · obtain ⟨q, qs, hs⟩ := List.exists_cons_of_ne_nil (splitOn_ne_nil sep s)
      rw [hs, List.cons_append] at ih
      rw [List.cons_append, splitOn_cons_of_ne ha ih, splitOn_cons_of_ne ha hs, List.cons_append]

/-- Each piece stands somewhere in the text. -/
theorem isInfix_of_mem_splitOn {s q : List α} (h : q ∈ splitOn sep s) : q <:+: s := by
  rw [← joinWith_splitOn sep s]
  generalize splitOn sep s = ps at h
  induction ps with
  | nil => exact absurd h List.not_mem_nil
  | cons p ps ih =>
    rcases List.eq_nil_or_concat ps with rfl | ⟨_, _, hne⟩
    · rw [List.mem_singleton.mp h]
      exact List.infix_rfl
    · have hps : ps ≠ [] := by
        rintro rfl
        simp at hne
      rw [joinWith_cons_of_ne_nil [sep] p hps, List.append_assoc]
      rcases List.mem_cons.mp h with rfl | h
      · exact (List.prefix_append _ _).isInfix
      · exact (ih h).trans ((List.suffix_append [sep] _).trans (List.suffix_append p _)).isInfix

/-! ## At the first separator -/

theorem splitFirst_append (h : sep ∉ p) (r : List α) :
    splitFirst sep (p ++ r) = (splitFirst sep r).map fun (before, after) => (p ++ before, after) := by
  induction p with
  | nil => simp
  | cons a p ih =>
    have ha : a ≠ sep := fun ha => h (by simp [ha])
    rw [List.cons_append, splitFirst, if_neg ha, ih (fun hp => h (List.mem_cons_of_mem _ hp)),
      Option.map_map]
    rfl

theorem splitFirst_append_cons (h : sep ∉ p) (r : List α) :
    splitFirst sep (p ++ sep :: r) = some (p, r) := by
  rw [splitFirst_append h, splitFirst, if_pos rfl, Option.map_some]
  dsimp only
  rw [List.append_nil]

/-- What is added behind the first separator leaves it the first one. -/
theorem splitFirst_append_of_some {s before after : List α}
    (h : splitFirst sep s = some (before, after)) (r : List α) :
    splitFirst sep (s ++ r) = some (before, after ++ r) := by
  induction s generalizing before with
  | nil => cases h
  | cons a s ih =>
    rw [splitFirst] at h
    rw [List.cons_append, splitFirst]
    split at h
    · next ha =>
      cases h
      rw [if_pos ha]
    · next ha =>
      obtain ⟨⟨before', after'⟩, hs, hsame⟩ := Option.map_eq_some_iff.mp h
      cases hsame
      rw [if_neg ha, ih hs]
      rfl

theorem splitFirst_eq_none (h : sep ∉ p) : splitFirst sep p = none := by
  induction p with
  | nil => rfl
  | cons a p ih =>
    have ha : a ≠ sep := fun ha => h (by simp [ha])
    rw [splitFirst, if_neg ha, ih (fun hp => h (List.mem_cons_of_mem _ hp))]
    rfl

end OData.Text
