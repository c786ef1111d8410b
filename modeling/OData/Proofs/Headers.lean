import OData.Headers

/-!
# Values in headers

What a change does to the values of every name (`values?_change`), and from it which values a map
made of pairs has: **all values that were given for the name, in the order of the pairs**
(`getAll_ofPairs`).
-/

set_option autoImplicit false

namespace OData

open OData.Text

theorem sameName_congr {a b : String} (h : sameName a b = true) (n : String) :
    sameName n a = sameName n b := by
  rw [sameName, beq_iff_eq] at h
  rw [sameName, sameName, h]

namespace Headers

/-! ## The values of a name that is present -/

def values? (h : Headers) (n : String) : Option (List String) := (h.entry? n).map Entry.values

theorem getAll_eq_values? (h : Headers) (n : String) : h.getAll n = (h.values? n).getD [] := rfl

theorem contains_eq_values? (h : Headers) (n : String) : h.contains n = (h.values? n).isSome := by
  rw [values?, Option.isSome_map, entry?, List.isSome_find?, contains]

/-- Changing the values of a name changes them alone, and afterwards the name is present. -/
theorem values?_change (name : String) (f : List String → List String) (h : Headers) (n : String) :
    (⟨change name f h.entries⟩ : Headers).values? n =
      if sameName n name then some (f (h.getAll n)) else h.values? n := by
  obtain ⟨es⟩ := h
  simp only [values?, getAll, entry?]
  induction es with
  | nil =>
    rw [change, List.find?_singleton]
    cases sameName n name <;> rfl
  | cons e es ih =>
    unfold change
    by_cases he : sameName name e.name = true
    · -- The entry that is changed is the one of `n` exactly if `n` spells the same name.
      rw [if_pos he, sameName_congr he, List.find?_cons, List.find?_cons]
      cases sameName n e.name <;> rfl
    · rw [if_neg he, List.find?_cons, List.find?_cons]
      cases hn : sameName n e.name with
      | true =>
        have hne : sameName n name = false := by
          rw [← Bool.not_eq_true, sameName_comm, sameName_congr hn]
          exact he
        rw [hne]
        rfl
      | false => exact ih

theorem getAll_change (name : String) (f : List String → List String) (h : Headers) (n : String) :
    (⟨change name f h.entries⟩ : Headers).getAll n =
      if sameName n name then f (h.getAll n) else h.getAll n := by
  rw [getAll_eq_values?, values?_change]
  split <;> rfl

/-! ## What the operations do to the values -/

/-- One more value for a name is added behind the others, and other names are left alone. -/
theorem getAll_append (h : Headers) (name value n : String) :
    (h.append name value).getAll n =
      if sameName n name then h.getAll n ++ [value] else h.getAll n :=
  getAll_change name (· ++ [value]) h n

/-- A value for a name replaces all that it had. -/
theorem getAll_insert (h : Headers) (name value n : String) :
    (h.insert name value).getAll n = if sameName n name then [value] else h.getAll n :=
  getAll_change name (fun _ => [value]) h n

theorem getAll_appendAll (h : Headers) (ps : List (String × String)) (n : String) :
    (h.appendAll ps).getAll n =
      h.getAll n ++ (ps.filter (sameName n ·.1)).map Prod.snd := by
  induction ps generalizing h with
  | nil => exact (List.append_nil _).symm
  | cons p ps ih =>
    rw [appendAll, List.foldl_cons]
    refine (ih (h.append p.1 p.2)).trans ?_
    rw [getAll_append, List.filter_cons]
    split
    · rw [List.map_cons, List.append_assoc, List.singleton_append]
    · rfl

/-- **The values of a name are those that were given for it.** -/
theorem getAll_ofPairs (ps : List (String × String)) (n : String) :
    (ofPairs ps).getAll n = (ps.filter (sameName n ·.1)).map Prod.snd :=
  getAll_appendAll empty ps n

theorem get?_ofPairs (ps : List (String × String)) (n : String) :
    (ofPairs ps).get? n = (ps.find? (sameName n ·.1)).map Prod.snd := by
  rw [get?, getAll_ofPairs, List.head?_map, List.head?_filter]

theorem get?_ofPairs_cons (name value : String) (ps : List (String × String)) (n : String) :
    (ofPairs ((name, value) :: ps)).get? n =
      if sameName n name then some value else (ofPairs ps).get? n := by
  rw [get?_ofPairs, get?_ofPairs, List.find?_cons]
  cases sameName n name <;> rfl

/-! ## Entries -/

/-- A name that is not present gets an entry at the end. -/
theorem change_of_absent {name : String} {es : List Entry}
    (h : (⟨es⟩ : Headers).contains name = false) (f : List String → List String) :
    change name f es = es ++ [⟨name, f []⟩] := by
  rw [contains, List.any_eq_false] at h
  induction es with
  | nil => rfl
  | cons e es ih =>
    obtain ⟨he, hes⟩ := List.forall_mem_cons.mp h
    rw [change, if_neg he, ih hes, List.cons_append]

theorem insert_of_absent {h : Headers} {name : String} (habsent : h.contains name = false)
    (value : String) : h.insert name value = ⟨h.entries ++ [⟨name, [value]⟩]⟩ :=
  congrArg Headers.mk (change_of_absent habsent _)

/-- What is added where it is absent stands behind all that was there. -/
theorem entries_insertIfAbsent (h : Headers) (name value : String) :
    (h.insertIfAbsent name value).entries =
      h.entries ++ if h.contains name then [] else [⟨name, [value]⟩] := by
  unfold insertIfAbsent
  cases hc : h.contains name with
  | true => exact (List.append_nil _).symm
  | false => exact change_of_absent hc _

theorem contains_insertIfAbsent_of_ne {name n : String} (hne : sameName n name = false)
    (h : Headers) (value : String) : (h.insertIfAbsent name value).contains n = h.contains n := by
  rw [contains, entries_insertIfAbsent, List.any_append]
  split
  · exact Bool.or_false _
  · rw [List.any_cons, hne]
    exact Bool.or_false _

theorem contains_insert (h : Headers) (name value n : String) :
    (h.insert name value).contains n = (h.contains n || sameName n name) := by
  rw [contains_eq_values?, contains_eq_values?, insert, insertAll, values?_change]
  cases sameName n name with
  | true => exact (Bool.or_true _).symm
  | false => exact (Bool.or_false _).symm

/-- The entries of all other names stay as they are, and in their order. -/
theorem filter_change {name : String} {p : Entry → Bool}
    (hp : ∀ e, p e = true → sameName name e.name = false) (f : List String → List String)
    (es : List Entry) : (change name f es).filter p = es.filter p := by
  have hout : ∀ e, sameName name e.name = true → ¬ p e = true := by
    intro e he h
    rw [hp e h] at he
    cases he
  induction es with
  | nil =>
    refine (List.filter_cons_of_neg (hout _ ?_)).trans rfl
    exact sameName_self name
  | cons e es ih =>
    unfold change
    split
    · next he =>
      rw [List.filter_cons_of_neg (hout e he), List.filter_cons_of_neg (hout ⟨e.name, f e.values⟩ he)]
    · rw [List.filter_cons, List.filter_cons, ih]

theorem filter_insert (h : Headers) (name value : String) {p : Entry → Bool}
    (hp : ∀ e, p e = true → sameName name e.name = false) :
    (h.insert name value).entries.filter p = h.entries.filter p :=
  filter_change hp _ h.entries

end Headers

end OData
