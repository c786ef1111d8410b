import OData.Parameters

/-!
# Members that are added one after the other

Calls that add members to a set are accepted or refused, and a refused call leaves the set as it
was. **What a set that started empty holds in the end is the first call of each name, in the order
of these calls** (`Parameters.members_of_calls`), and these are the calls that were accepted. So
calls that were refused can be left out, and the set and its text are the same.
-/

set_option autoImplicit false

namespace OData.Parameters

/-! ## Calls -/

/-- The set after some calls, whatever came of them. -/
def addAll (ps : Parameters) (calls : List (String × Literal)) : Parameters :=
  calls.foldl (fun ps c => (ps.add c.1 c.2).2) ps

/-- The calls that are accepted, if they are made one after the other. -/
def accepted (ps : Parameters) : List (String × Literal) → List (String × Literal)
  | [] => []
  | c :: calls =>
    match ps.add c.1 c.2 with
    | (.ok (), ps') => c :: accepted ps' calls
    | (.error _, ps') => accepted ps' calls

/-- The first call of each name. -/
def firstOfEach : List (String × Literal) → List (String × Literal)
  | [] => []
  | c :: calls => c :: (firstOfEach calls).filter (·.1 != c.1)

section

variable {ps : Parameters} {name : String}

theorem add_of_taken (h : ps.contains name = true) (value : Literal) :
    ps.add name value = (.error (.construction (.repeatedParameter name)), ps) := by
  rw [add, add?, if_pos h]

theorem add_of_free (h : ps.contains name = false) (value : Literal) :
    ps.add name value = (.ok (), { ps with entries := ps.entries ++ [(name, value)] }) := by
  rw [add, add?, if_neg (Bool.eq_false_iff.mp h)]

end

/-! ## First calls -/

theorem nodup_firstOfEach (calls : List (String × Literal)) :
    ((firstOfEach calls).map Prod.fst).Nodup := by
  induction calls with
  | nil => exact .nil
  | cons c calls ih =>
    rw [firstOfEach, List.map_cons, List.nodup_cons]
    refine ⟨?_, ih.sublist (List.filter_sublist.map _)⟩
    intro hmem
    obtain ⟨d, hd, hname⟩ := List.mem_map.mp hmem
    have hne := (List.mem_filter.mp hd).2
    rw [hname, bne_self_eq_false] at hne
    cases hne

/-- Calls of different names are all first ones. -/
theorem firstOfEach_of_nodup {calls : List (String × Literal)}
    (h : (calls.map Prod.fst).Nodup) : firstOfEach calls = calls := by
  induction calls with
  | nil => rfl
  | cons c calls ih =>
    obtain ⟨hc, hcalls⟩ := List.nodup_cons.mp h
    rw [firstOfEach, ih hcalls, List.filter_eq_self.mpr]
    intro d hd
    exact bne_iff_ne.mpr fun hname => hc (hname ▸ List.mem_map_of_mem hd)

theorem find?_firstOfEach (calls : List (String × Literal)) (name : String) :
    (firstOfEach calls).find? (·.1 == name) = calls.find? (·.1 == name) := by
  induction calls with
  | nil => rfl
  | cons c calls ih =>
    rw [firstOfEach, List.find?_cons, List.find?_cons]
    cases hc : c.1 == name with
    | true => rfl
    | false =>
      -- Of the calls of another name, none is left out.
      rw [← ih, List.find?_filter]
      refine congrArg (List.find? · _) (funext fun d => ?_)
      cases hd : d.1 == name with
      | false => exact decide_eq_false fun hboth => Bool.false_ne_true hboth.2
      | true =>
        rw [eq_of_beq hd]
        exact decide_eq_true ⟨bne_iff_ne.mpr (ne_of_beq_false hc).symm, rfl⟩

/-! ## What calls come to -/

/-- The first calls of the names that are free. -/
def fresh (ps : Parameters) (calls : List (String × Literal)) : List (String × Literal) :=
  (firstOfEach calls).filter (!ps.contains ·.1)

variable {ps : Parameters} {c : String × Literal}

theorem fresh_cons_of_taken (h : ps.contains c.1 = true) (calls : List (String × Literal)) :
    ps.fresh (c :: calls) = ps.fresh calls := by
  rw [fresh, firstOfEach, List.filter_cons, h, Bool.not_true, if_neg Bool.false_ne_true,
    List.filter_filter, fresh]
  refine List.filter_congr ?_
  intro d _
  cases hd : d.1 == c.1 with
  | true => rw [eq_of_beq hd, h, Bool.not_true, Bool.false_and]
  | false => rw [bne, hd, Bool.not_false, Bool.and_true]

theorem fresh_cons_of_free (h : ps.contains c.1 = false) (calls : List (String × Literal)) :
    ps.fresh (c :: calls) = c :: fresh { ps with entries := ps.entries ++ [c] } calls := by
  rw [fresh, firstOfEach, List.filter_cons, h, Bool.not_false, if_pos rfl, List.filter_filter,
    fresh]
  refine congrArg (c :: ·) (List.filter_congr ?_)
  intro d _
  rw [contains, contains, List.any_append, List.any_cons, List.any_nil, Bool.or_false, Bool.not_or,
    bne, BEq.comm]

theorem accepted_eq_fresh (ps : Parameters) (calls : List (String × Literal)) :
    ps.accepted calls = ps.fresh calls := by
  induction calls generalizing ps with
  | nil => rfl
  | cons c calls ih =>
    rw [accepted]
    cases h : ps.contains c.1 with
    | true =>
      rw [add_of_taken h, fresh_cons_of_taken h]
      exact ih ps
    | false =>
      rw [add_of_free h, fresh_cons_of_free h]
      exact congrArg (c :: ·) (ih _)

/-- **What is accepted stands behind what was there.** -/
theorem addAll_eq (ps : Parameters) (calls : List (String × Literal)) :
    ps.addAll calls = { ps with entries := ps.entries ++ ps.accepted calls } := by
  induction calls generalizing ps with
  | nil =>
    rw [accepted, List.append_nil]
    rfl
  | cons c calls ih =>
    rw [addAll, List.foldl_cons, accepted]
    cases h : ps.contains c.1 with
    | true =>
      rw [add_of_taken h]
      exact ih ps
    | false =>
      rw [add_of_free h]
      refine (ih _).trans ?_
      rw [List.append_assoc]
      rfl

section

variable (p : Protocol) (style : Style) (calls : List (String × Literal))

theorem accepted_empty : (empty p style).accepted calls = firstOfEach calls := by
  rw [accepted_eq_fresh]
  exact List.filter_eq_self.mpr fun _ _ => rfl

theorem addAll_empty : (empty p style).addAll calls = ⟨p, style, firstOfEach calls⟩ := by
  rw [addAll_eq, accepted_empty]
  rfl

end

/-- **A set keeps the first value of each name.** Of calls that add members to an empty set, one
fails if an earlier one of its name was accepted, and then leaves the set as it is; otherwise its
member comes last. The set in the end holds the first call of each name, in this order, and gives
its value for the name. Without the calls that failed, the set and what it is rendered to are the
same. -/
theorem members_of_calls (p : Protocol) (style : Style) (calls : List (String × Literal)) :
    let start := empty p style
    let ps := start.addAll calls
    (∀ before c after, calls = before ++ c :: after →
      let now := start.addAll before
      ((∃ d ∈ start.accepted before, d.1 = c.1) →
        now.add c.1 c.2 = (.error (.construction (.repeatedParameter c.1)), now)) ∧
      ((¬ ∃ d ∈ start.accepted before, d.1 = c.1) →
        now.add c.1 c.2 = (.ok (), { now with entries := now.entries ++ [c] }))) ∧
    ps.entries = firstOfEach calls ∧ (ps.entries.map Prod.fst).Nodup ∧
    (∀ name, ps.get? name = (calls.find? (·.1 == name)).map Prod.snd) ∧
    start.addAll (start.accepted calls) = ps ∧
    ∀ e position,
      (start.addAll (start.accepted calls)).render e position = ps.render e position := by
  intro start ps
  have hps : ps = ⟨p, style, firstOfEach calls⟩ := addAll_empty p style calls
  have hnodup := nodup_firstOfEach calls
  have hdropped : start.addAll (start.accepted calls) = ps := by
    rw [hps, accepted_empty, addAll_empty, firstOfEach_of_nodup hnodup]
  refine ⟨?_, ?_, ?_, ?_, hdropped, ?_⟩
  · intro before c after _ now
    have hnow : now = ⟨p, style, start.accepted before⟩ := by
      rw [accepted_empty]
      exact addAll_empty p style before
    have hcontains : now.contains c.1 = true ↔ ∃ d ∈ start.accepted before, d.1 = c.1 := by
      rw [hnow, contains, List.any_eq_true]
      simp only [beq_iff_eq]
    exact ⟨fun h => add_of_taken (hcontains.mpr h) c.2,
      fun h => add_of_free (Bool.eq_false_iff.mpr (mt hcontains.mp h)) c.2⟩
  · rw [hps]
  · rw [hps]
    exact hnodup
  · intro name
    rw [hps, get?, find?_firstOfEach]
  · intro e position
    rw [hdropped]

/-- Two names, each of them given twice. -/
def sampleCalls : List (String × Literal) :=
  [("id", .int32 1), ("name", .text "x"), ("id", .int32 2), ("name", .text "x")]

/-- The third call fails because of the first, and the set that is left is a key with two
members. -/
theorem members_of_sampleCalls :
    ((empty .v4 .key).addAll [("id", .int32 1), ("name", .text "x")]).add "id" (.int32 2) =
      (.error (.construction (.repeatedParameter "id")),
        (empty .v4 .key).addAll [("id", .int32 1), ("name", .text "x")]) ∧
    ((empty .v4 .key).addAll sampleCalls).entries = [("id", .int32 1), ("name", .text "x")] ∧
    ((empty .v4 .key).addAll sampleCalls).render .regular .path = "(id=1,name='x')" := by
  obtain ⟨hcalls, hentries, -⟩ := members_of_calls .v4 .key sampleCalls
  have hfails := (hcalls [("id", .int32 1), ("name", .text "x")] ("id", .int32 2)
    [("name", .text "x")] rfl).1 ⟨("id", .int32 1), by decide, rfl⟩
  exact ⟨hfails, hentries.trans (by decide), by decide +kernel⟩

end OData.Parameters
