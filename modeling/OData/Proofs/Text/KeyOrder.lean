import Mathlib.Data.List.Induction
import OData.Text.KeyOrder

/-!
# Lists in key order stay so

`insertByKey` puts a key where it belongs: the keys keep ascending (`ascending_insertByKey`), so
each is there once. Putting any pairs in order leaves the last value of each key
(`lastOf?_keyOrdered`).
-/

set_option autoImplicit false

namespace OData.Text

variable {α : Type}

/-- Keys in ascending order, each once. -/
def Ascending (pairs : List (String × α)) : Prop := pairs.Pairwise fun p q => p.1 < q.1

theorem mem_insertByKey {key : String} {value : α} {pairs : List (String × α)} {p : String × α}
    (h : p ∈ insertByKey key value pairs) : p.1 = key ∨ p ∈ pairs := by
  induction pairs with
  | nil =>
    rw [List.mem_singleton.mp h]
    exact .inl rfl
  | cons q pairs ih =>
    obtain ⟨k, v⟩ := q
    unfold insertByKey at h
    split at h
    · rcases List.mem_cons.mp h with rfl | h
      · exact .inl rfl
      · exact .inr h
    · split at h
      · rcases List.mem_cons.mp h with rfl | h
        · exact .inl rfl
        · exact .inr (List.mem_cons_of_mem _ h)
      · rcases List.mem_cons.mp h with rfl | h
        · exact .inr List.mem_cons_self
        · exact (ih h).imp_right (List.mem_cons_of_mem _)

theorem ascending_insertByKey {pairs : List (String × α)} (h : Ascending pairs) (key : String)
    (value : α) : Ascending (insertByKey key value pairs) := by
  induction pairs with
  | nil => exact List.pairwise_singleton _ _
  | cons q pairs ih =>
    obtain ⟨k, v⟩ := q
    obtain ⟨hbelow, hrest⟩ := List.pairwise_cons.mp h
    unfold insertByKey
    split
    · next hlt =>
      refine List.pairwise_cons.mpr ⟨?_, h⟩
      intro p hp
      rcases List.mem_cons.mp hp with rfl | hp
      · exact hlt
      · exact String.lt_trans hlt (hbelow p hp)
    · next hnlt =>
      split
      · next hkey =>
        subst hkey
        exact List.pairwise_cons.mpr ⟨hbelow, hrest⟩
      · next hne =>
        have hlt : k < key := by
          apply String.not_le.mp
          intro hle
          exact hne (String.le_antisymm hle (String.not_lt.mp hnlt))
        refine List.pairwise_cons.mpr ⟨?_, ih hrest⟩
        intro p hp
        rcases mem_insertByKey hp with hkey | hp
        · rw [hkey]
          exact hlt
        · exact hbelow p hp

/-! ## Looking up -/

/-- The value of a key; of several the last. -/
def lastOf? (key : String) (pairs : List (String × α)) : Option α :=
  (pairs.reverse.find? (·.1 == key)).map Prod.snd

theorem lastOf?_cons (key k : String) (v : α) (pairs : List (String × α)) :
    lastOf? key ((k, v) :: pairs) =
      (lastOf? key pairs).or (if k = key then some v else none) := by
  unfold lastOf?
  rw [List.reverse_cons, List.find?_append]
  cases pairs.reverse.find? (·.1 == key) with
  | some p => rfl
  | none =>
    by_cases hk : k = key
    · simp [hk]
    · simp [hk]

theorem lastOf?_concat (key k : String) (v : α) (pairs : List (String × α)) :
    lastOf? key (pairs ++ [(k, v)]) = if k = key then some v else lastOf? key pairs := by
  unfold lastOf?
  rw [List.reverse_append, List.reverse_singleton, List.singleton_append, List.find?_cons]
  by_cases hk : k = key
  · rw [if_pos hk, beq_iff_eq.mpr hk]
    rfl
  · rw [if_neg hk, beq_eq_false_iff_ne.mpr hk]

theorem lastOf?_eq_none {key : String} {pairs : List (String × α)}
    (h : ∀ p ∈ pairs, p.1 ≠ key) : lastOf? key pairs = none := by
  unfold lastOf?
  rw [Option.map_eq_none_iff, List.find?_eq_none]
  intro p hp
  simpa using h p (List.mem_reverse.mp hp)

theorem mem_of_lastOf? {pairs : List (String × α)} {key : String} {v : α}
    (h : lastOf? key pairs = some v) : (key, v) ∈ pairs := by
  obtain ⟨⟨key', v'⟩, hfind, rfl⟩ := Option.map_eq_some_iff.mp h
  have hkey := List.find?_some hfind
  obtain rfl : key' = key := eq_of_beq hkey
  exact List.mem_reverse.mp (List.mem_of_find?_eq_some hfind)

/-- A key that is there once has its own value. -/
theorem lastOf?_of_mem {pairs : List (String × α)} (h : (pairs.map Prod.fst).Nodup) {key : String}
    {v : α} (hmem : (key, v) ∈ pairs) : lastOf? key pairs = some v := by
  induction pairs with
  | nil => cases hmem
  | cons p pairs ih =>
    obtain ⟨k, u⟩ := p
    obtain ⟨hnot, hrest⟩ := List.nodup_cons.mp h
    rw [lastOf?_cons]
    rcases List.mem_cons.mp hmem with heq | hmem
    · cases heq
      have hnone : lastOf? key pairs = none := by
        apply lastOf?_eq_none
        rintro p hp rfl
        exact hnot (List.mem_map.mpr ⟨p, hp, rfl⟩)
      rw [hnone, if_pos rfl, Option.none_or]
    · rw [ih hrest hmem, Option.some_or]

/-- **What is put in counts last**, wherever its place is. -/
theorem lastOf?_insertByKey {pairs : List (String × α)} (h : Ascending pairs) (key k : String)
    (v : α) :
    lastOf? key (insertByKey k v pairs) = if k = key then some v else lastOf? key pairs := by
  induction pairs with
  | nil =>
    by_cases hk : k = key
    · simp [insertByKey, lastOf?, hk]
    · simp [insertByKey, lastOf?, hk]
  | cons p pairs ih =>
    obtain ⟨k', u⟩ := p
    obtain ⟨hbelow, hrest⟩ := List.pairwise_cons.mp h
    unfold insertByKey
    split
    · next hlt =>
      rw [lastOf?_cons]
      by_cases hk : k = key
      · -- All other keys are above this one.
        have hnone : lastOf? key ((k', u) :: pairs) = none := by
          apply lastOf?_eq_none
          intro q hq
          rw [← hk]
          rcases List.mem_cons.mp hq with rfl | hq
          · exact (String.ne_of_lt hlt).symm
          · exact (String.ne_of_lt (String.lt_trans hlt (hbelow q hq))).symm
        rw [hnone, if_pos hk, Option.none_or]
      · rw [if_neg hk, if_neg hk, Option.or_none]
    split
    · next heq =>
      subst heq
      rw [lastOf?_cons, lastOf?_cons]
      by_cases hk : k = key
      · have hnone : lastOf? key pairs = none := by
          apply lastOf?_eq_none
          intro q hq
          rw [← hk]
          exact (String.ne_of_lt (hbelow q hq)).symm
        rw [hnone, if_pos hk, if_pos hk, Option.none_or]
      · rw [if_neg hk, if_neg hk, if_neg hk]
    · rw [lastOf?_cons, lastOf?_cons, ih hrest]
      split
      · rw [Option.some_or]
      · rfl

theorem keyOrdered_concat (pairs : List (String × α)) (k : String) (v : α) :
    keyOrdered (pairs ++ [(k, v)]) = insertByKey k v (keyOrdered pairs) := by
  unfold keyOrdered
  rw [List.foldl_append]
  rfl

theorem ascending_keyOrdered (pairs : List (String × α)) : Ascending (keyOrdered pairs) := by
  induction pairs using List.reverseRecOn with
  | nil => exact .nil
  | append_singleton pairs p ih =>
    rw [keyOrdered_concat]
    exact ascending_insertByKey ih _ _

/-- **Order changes nothing about the last values.** -/
theorem lastOf?_keyOrdered (key : String) (pairs : List (String × α)) :
    lastOf? key (keyOrdered pairs) = lastOf? key pairs := by
  induction pairs using List.reverseRecOn with
  | nil => rfl
  | append_singleton pairs p ih =>
    rw [keyOrdered_concat, lastOf?_insertByKey (ascending_keyOrdered pairs), lastOf?_concat, ih]

theorem Ascending.nodup {pairs : List (String × α)} (h : Ascending pairs) :
    (pairs.map Prod.fst).Nodup :=
  List.pairwise_map.mpr (h.imp fun hlt => String.ne_of_lt hlt)

theorem mem_of_mem_keyOrdered {pairs : List (String × α)} {p : String × α}
    (h : p ∈ keyOrdered pairs) : p ∈ pairs := by
  apply mem_of_lastOf?
  rw [← lastOf?_keyOrdered]
  exact lastOf?_of_mem (ascending_keyOrdered pairs).nodup h

/-- No key is lost in putting pairs in order. -/
theorem mem_keys_keyOrdered {pairs : List (String × α)} {key : String}
    (h : key ∈ pairs.map Prod.fst) : key ∈ (keyOrdered pairs).map Prod.fst := by
  obtain ⟨p, hp, rfl⟩ := List.mem_map.mp h
  cases hlast : lastOf? p.1 pairs with
  | some v =>
    rw [← lastOf?_keyOrdered] at hlast
    exact List.mem_map.mpr ⟨_, mem_of_lastOf? hlast, rfl⟩
  | none =>
    have hnot := List.find?_eq_none.mp (Option.map_eq_none_iff.mp hlast) p (List.mem_reverse.mpr hp)
    exact absurd (beq_self_eq_true p.1) hnot

/-! ## What order leaves alone -/

theorem insertByKey_of_lt {pairs : List (String × α)} {key : String}
    (h : ∀ p ∈ pairs, p.1 < key) (v : α) : insertByKey key v pairs = pairs ++ [(key, v)] := by
  induction pairs with
  | nil => rfl
  | cons p pairs ih =>
    obtain ⟨k, u⟩ := p
    have hlt : k < key := h (k, u) List.mem_cons_self
    rw [insertByKey, if_neg (String.lt_asymm hlt), if_neg (String.ne_of_lt hlt).symm,
      ih fun p hp => h p (List.mem_cons_of_mem _ hp), List.cons_append]

/-- What is in order stays as it is. -/
theorem keyOrdered_of_ascending {pairs : List (String × α)} (h : Ascending pairs) :
    keyOrdered pairs = pairs := by
  induction pairs using List.reverseRecOn with
  | nil => rfl
  | append_singleton pairs p ih =>
    obtain ⟨hpairs, -, hbelow⟩ := List.pairwise_append.mp h
    rw [keyOrdered_concat, ih hpairs, insertByKey_of_lt]
    intro q hq
    exact hbelow q hq p List.mem_cons_self

/-- The order is one of the keys, whatever becomes of the values. -/
theorem keyOrdered_map {β : Type} (f : α → β) (pairs : List (String × α)) :
    keyOrdered (pairs.map fun p => (p.1, f p.2)) = (keyOrdered pairs).map fun p => (p.1, f p.2) := by
  have hinsert : ∀ (key : String) (v : α) (pairs : List (String × α)),
      (insertByKey key v pairs).map (fun p => (p.1, f p.2)) =
        insertByKey key (f v) (pairs.map fun p => (p.1, f p.2)) := by
    intro key v pairs
    induction pairs with
    | nil => rfl
    | cons p pairs ih =>
      rw [insertByKey, List.map_cons, insertByKey]
      split
      · rfl
      split
      · rfl
      · rw [List.map_cons, ih]
  induction pairs using List.reverseRecOn with
  | nil => rfl
  | append_singleton pairs p ih =>
    rw [List.map_append, List.map_singleton, keyOrdered_concat, keyOrdered_concat, hinsert, ih]

theorem filter_insertByKey_of_not {keep : String → Bool} {key : String} (hkey : keep key = false)
    (v : α) (pairs : List (String × α)) :
    (insertByKey key v pairs).filter (fun p => keep p.1) = pairs.filter fun p => keep p.1 := by
  induction pairs with
  | nil => simp [insertByKey, hkey]
  | cons p pairs ih =>
    rw [insertByKey]
    split
    · rw [List.filter_cons_of_neg (by simp [hkey])]
    split
    · next heq =>
      rw [List.filter_cons_of_neg (by simp [hkey]), List.filter_cons_of_neg (by simp [← heq, hkey])]
    · rw [List.filter_cons, List.filter_cons, ih]

theorem filter_insertByKey {keep : String → Bool} {key : String} (hkey : keep key = true) (v : α)
    {pairs : List (String × α)} (h : Ascending pairs) :
    (insertByKey key v pairs).filter (fun p => keep p.1) =
      insertByKey key v (pairs.filter fun p => keep p.1) := by
  induction pairs with
  | nil => simp [insertByKey, hkey]
  | cons p pairs ih =>
    obtain ⟨k, u⟩ := p
    obtain ⟨hbelow, hrest⟩ := List.pairwise_cons.mp h
    rw [insertByKey]
    split
    · next hlt =>
      -- All that is kept of the others is above the key as well.
      have hfirst : ∀ rest : List (String × α), (∀ q ∈ rest, key < q.1) →
          insertByKey key v rest = (key, v) :: rest := by
        intro rest hrest
        cases rest with
        | nil => rfl
        | cons q rest =>
          obtain ⟨k', u'⟩ := q
          rw [insertByKey, if_pos (hrest _ List.mem_cons_self)]
      rw [List.filter_cons_of_pos (by simpa using hkey), hfirst]
      intro q hq
      rcases List.mem_cons.mp (List.mem_filter.mp hq).1 with rfl | hq
      · exact hlt
      · exact String.lt_trans hlt (hbelow q hq)
    split
    · next hnlt heq =>
      subst heq
      rw [List.filter_cons_of_pos (by simpa using hkey),
        List.filter_cons_of_pos (by simpa using hkey), insertByKey, if_neg hnlt, if_pos rfl]
    · next hnlt hne =>
      cases hk : keep k with
      | true =>
        rw [List.filter_cons_of_pos (by simpa using hk), List.filter_cons_of_pos (by simpa using hk),
          insertByKey, if_neg hnlt, if_neg hne, ih hrest]
      | false =>
        rw [List.filter_cons_of_neg (by simp [hk]), List.filter_cons_of_neg (by simp [hk]), ih hrest]

/-- Keys can be taken away before or after. -/
theorem filter_keyOrdered (keep : String → Bool) (pairs : List (String × α)) :
    (keyOrdered pairs).filter (fun p => keep p.1) = keyOrdered (pairs.filter fun p => keep p.1) := by
  induction pairs using List.reverseRecOn with
  | nil => rfl
  | append_singleton pairs p ih =>
    rw [keyOrdered_concat, List.filter_append]
    cases hp : keep p.1 with
    | true =>
      rw [filter_insertByKey hp p.2 (ascending_keyOrdered pairs), ih,
        List.filter_cons_of_pos (by simpa using hp), List.filter_nil, keyOrdered_concat]
    | false =>
      rw [filter_insertByKey_of_not hp, ih, List.filter_cons_of_neg (by simp [hp]), List.filter_nil,
        List.append_nil]

end OData.Text
