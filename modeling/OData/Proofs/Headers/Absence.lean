import OData.Proofs.Headers.Changes

/-!
# Names without values

A name may be present without any values, and then a value is not added for it where it is absent:
absence is that of the name. A name comes to be so in one way only, which is that all its values are
replaced by none (`Headers.values?_run`). **For every other name, present or not, a value is added
exactly if the name has none, and afterwards it has one** (`Headers.tryInsert_of_run`).
-/

set_option autoImplicit false

namespace OData.Headers

open OData.Text

/-! ## The values of a name that is present -/

theorem get?_eq_values? (h : Headers) (n : String) : h.get? n = (h.values? n).bind List.head? := by
  rw [get?, getAll_eq_values?]
  cases h.values? n <;> rfl

theorem values?_congr {n m : String} (hn : sameName n m = true) (h : Headers) :
    h.values? n = h.values? m := by
  rw [values?, values?, entry?, entry?]
  refine congrArg (fun p => (h.entries.find? p).map Entry.values) (funext fun e => ?_)
  rw [sameName_comm n, sameName_comm m, sameName_congr hn]

theorem values?_append (h : Headers) (name value n : String) :
    (h.append name value).values? n =
      if sameName n name then some (h.getAll n ++ [value]) else h.values? n :=
  values?_change name (· ++ [value]) h n

theorem values?_erase {h : Headers} (hd : Distinct h.names) (name n : String) :
    (h.erase name).values? n = if sameName n name then none else h.values? n := by
  rw [values?, entry?, erase, eraseP_eq hd, List.find?_filter]
  split
  · next hn =>
    rw [Option.map_eq_none_iff, List.find?_eq_none]
    intro e _ hboth
    obtain ⟨hout, hin⟩ := of_decide_eq_true hboth
    rw [sameName_comm, ← sameName_congr hn, sameName_comm, hin] at hout
    cases hout
  · next hn =>
    refine congrArg (fun p => (h.entries.find? p).map Entry.values) (funext fun e => ?_)
    cases he : sameName n e.name with
    | false => exact decide_eq_false fun hboth => Bool.false_ne_true hboth.2
    | true =>
      have hout : sameName name e.name = false := by
        rw [← sameName_congr he, sameName_comm]
        exact Bool.eq_false_iff.mpr hn
      rw [hout]
      rfl

/-- A name that pairs are added for has values, and all others stay as they are. -/
theorem values?_appendAll (h : Headers) (ps : List (String × String)) (n : String) :
    (h.appendAll ps).values? n = some [] ↔
      ps.all (!sameName n ·.1) = true ∧ h.values? n = some [] := by
  induction ps generalizing h with
  | nil => exact (and_iff_right rfl).symm
  | cons p ps ih =>
    refine (ih (h.append p.1 p.2)).trans ?_
    rw [List.all_cons, values?_append]
    cases sameName n p.1 <;> simp

/-! ## Changes -/

/-- Whether a change leaves a name that has no values as it is: all do that are not about it, and to
add a value where it is absent is no change to it. -/
def Change.passesBy (n : String) : Change → Bool
  | insertIfAbsent _ _ => true
  | c => c.edits.all (·.settles? n == none)

/-- Whether a change takes all values of a name and not the name. -/
def Change.empties (n : String) : Change → Bool
  | insertAll name [] => sameName n name
  | _ => false

/-- Whether some changes leave a name without values: the last of those that do not pass it by has
taken them. -/
def isEmptied (n : String) (changes : List Change) : Bool :=
  (changes.reverse.find? fun c => !c.passesBy n).any (Change.empties n)

theorem isEmptied_concat (n : String) (changes : List Change) (c : Change) :
    isEmptied n (changes ++ [c]) =
      if c.passesBy n then isEmptied n changes else c.empties n := by
  unfold isEmptied
  rw [List.reverse_append, List.reverse_singleton, List.singleton_append, List.find?_cons]
  cases c.passesBy n <;> rfl

theorem settles?_put_eq_none (n name : String) :
    ((Edit.put name).settles? n == none) = !sameName n name := by
  rw [Edit.settles?]
  cases sameName n name <;> rfl

theorem settles?_take_eq_none (n name : String) :
    ((Edit.take name).settles? n == none) = !sameName n name := by
  rw [Edit.settles?]
  cases sameName n name <;> rfl

/-- After values have been given to a name, it is without any only if they are none. -/
theorem values?_put (name : String) (f : List String → List String) (h : Headers) (n : String) :
    (⟨change name f h.entries⟩ : Headers).values? n = some [] ↔
      if [Edit.put name].all (·.settles? n == none) then h.values? n = some []
      else f (h.getAll n) = [] := by
  rw [values?_change, List.all_cons, List.all_nil, Bool.and_true, settles?_put_eq_none]
  cases sameName n name <;> simp

/-- **After a change a name is without values** if the change has taken them, or if the name was
without values and the change passes it by. -/
theorem values?_apply {h : Headers} (hd : Distinct h.names) (c : Change) (n : String) :
    (c.apply h).values? n = some [] ↔
      if c.passesBy n then h.values? n = some [] else c.empties n = true := by
  cases c with
  | append name value =>
    refine (values?_put name (· ++ [value]) h n).trans ?_
    simp [Change.passesBy, Change.edits, Change.empties]
  | insert name value =>
    refine (values?_put name (fun _ => [value]) h n).trans ?_
    simp [Change.passesBy, Change.edits, Change.empties]
  | insertAll name values =>
    refine (values?_put name (fun _ => values) h n).trans ?_
    simp only [Change.passesBy, Change.edits, List.all_cons, List.all_nil, Bool.and_true,
      settles?_put_eq_none]
    cases hn : sameName n name <;> cases values <;> simp [Change.empties, hn]
  | insertIfAbsent name value =>
    rw [Change.apply, insertIfAbsent, Change.passesBy, if_pos rfl]
    cases hc : h.contains name with
    | true => rfl
    | false =>
      rw [if_neg Bool.false_ne_true, values?_append]
      cases hn : sameName n name with
      | false => rfl
      | true =>
        -- The name is absent before and has a value afterwards.
        rw [contains_eq_values?, ← values?_congr hn, Option.isSome_eq_false_iff,
          Option.isNone_iff_eq_none] at hc
        rw [getAll_eq_values?, hc]
        simp
  | erase name =>
    rw [Change.apply, values?_erase hd]
    simp only [Change.passesBy, Change.edits, List.all_cons, List.all_nil, Bool.and_true,
      settles?_take_eq_none]
    cases sameName n name <;> simp [Change.empties]
  | extend other =>
    refine (values?_appendAll h other.pairs n).trans ?_
    simp only [Change.passesBy, Change.edits, List.all_map, Function.comp_def,
      settles?_put_eq_none]
    cases other.pairs.all (!sameName n ·.1) <;> simp [Change.empties]
  | collect pairs =>
    -- The map before is given up, and no name of the empty one is present.
    refine (values?_appendAll empty pairs n).trans (iff_of_false ?_ Bool.false_ne_true)
    rintro ⟨-, hnone⟩
    cases hnone

/-- **A name is without values if all its values have been replaced by none** and no change since
has been about it, but for attempts to add a value where it is absent. -/
theorem values?_run (changes : List Change) (n : String) :
    (run changes).values? n = some [] ↔ isEmptied n changes = true := by
  induction changes using List.reverseRecOn with
  | nil => exact iff_of_false nofun nofun
  | append_singleton changes c ih =>
    rw [run_concat, values?_apply (distinct_run changes), isEmptied_concat]
    split
    · exact ih
    · rfl

/-! ## Adding where it is absent -/

section

variable {h : Headers} {n : String}

theorem tryInsert_of_absent (habsent : h.values? n = none) (v : String) :
    h.tryInsert n v = (true, h.append n v) := by
  have hcontains : h.contains n = false := by
    rw [contains_eq_values?, habsent]
    rfl
  rw [tryInsert, hcontains, if_neg Bool.false_ne_true]

theorem tryInsert_of_present {vs : List String} (hpresent : h.values? n = some vs) (v : String) :
    h.tryInsert n v = (false, h) := by
  have hcontains : h.contains n = true := by
    rw [contains_eq_values?, hpresent]
    rfl
  rw [tryInsert, hcontains, if_pos rfl]

theorem get?_append_of_absent (habsent : h.values? n = none) (v : String) :
    (h.append n v).get? n = some v := by
  rw [get?_eq_values?, values?_append, if_pos (sameName_self n), getAll_eq_values?, habsent]
  rfl

end

/-- **A value is added exactly if the name has none, and afterwards it has one.** The map is left as
it is otherwise. This holds after any changes but those that leave the name without values: then
nothing is added, and the name still has no value. -/
theorem tryInsert_of_run (changes : List Change) (n v : String) :
    let h := run changes
    let r := h.tryInsert n v
    (isEmptied n changes = false →
      (r.1 = true ↔ h.get? n = none) ∧ (r.1 = true → r.2.get? n = some v) ∧
        (r.1 = false → r.2 = h) ∧ (r.2.get? n).isSome) ∧
    (isEmptied n changes = true →
      h.get? n = none ∧ r.1 = false ∧ r.2 = h ∧ r.2.get? n = none) := by
  intro h r
  have hempty : h.values? n = some [] ↔ isEmptied n changes = true := values?_run changes n
  have hget : h.get? n = (h.values? n).bind List.head? := get?_eq_values? h n
  rcases hvalues : h.values? n with _ | _ | ⟨w, ws⟩
  · have hr : r = (true, h.append n v) := tryInsert_of_absent hvalues v
    have hadded := get?_append_of_absent hvalues v
    have hfull : isEmptied n changes ≠ true := fun he => nomatch hvalues.symm.trans (hempty.mpr he)
    rw [hvalues] at hget
    rw [hr]
    exact ⟨fun _ => ⟨iff_of_true rfl hget, fun _ => hadded, nofun, Option.isSome_of_eq_some hadded⟩,
      fun he => absurd he hfull⟩
  · have hr : r = (false, h) := tryInsert_of_present hvalues v
    have hemptied := hempty.mp hvalues
    rw [hvalues] at hget
    rw [hr, hemptied]
    exact ⟨nofun, fun _ => ⟨hget, rfl, rfl, hget⟩⟩
  · have hr : r = (false, h) := tryInsert_of_present hvalues v
    have hfull : isEmptied n changes ≠ true := by
      intro he
      cases hvalues.symm.trans (hempty.mpr he)
    rw [hvalues] at hget
    rw [hr]
    refine ⟨fun _ => ⟨iff_of_false nofun ?_, nofun, fun _ => rfl, Option.isSome_of_eq_some hget⟩,
      fun he => absurd he hfull⟩
    rw [hget]
    exact nofun

/-- A name that has lost its value to an empty list, and one that has lost it for good. -/
def lossyChanges : List Change :=
  [.append "X-Id" "1", .append "ETag" "2", .insertAll "x-id" [], .erase "etag",
    .insertIfAbsent "X-ID" "3"]

theorem tryInsert_of_run_lossyChanges :
    ((run lossyChanges).tryInsert "Etag" "4").1 = true ∧
      ((run lossyChanges).tryInsert "Etag" "4").2.get? "Etag" = some "4" ∧
      ((run lossyChanges).tryInsert "X-Id" "4").2 = run lossyChanges := by
  obtain ⟨hadded, hvalue, -, -⟩ := (tryInsert_of_run lossyChanges "Etag" "4").1 (by decide)
  have hgone : ((run lossyChanges).tryInsert "Etag" "4").1 = true := hadded.mpr (by decide)
  obtain ⟨-, -, hkept, -⟩ := (tryInsert_of_run lossyChanges "X-Id" "4").2 (by decide)
  exact ⟨hgone, hvalue hgone, hkept⟩

/-- Nothing is added for a name that is present without values, although it has none, and so it has
none afterwards. -/
theorem not_added_of_emptied :
    (run [.insertAll "X-Id" []]).get? "X-Id" = none ∧
      ((run [.insertAll "X-Id" []]).tryInsert "X-Id" "1").1 = false ∧
      ((run [.insertAll "X-Id" []]).tryInsert "X-Id" "1").2.get? "X-Id" = none := by decide

end OData.Headers
