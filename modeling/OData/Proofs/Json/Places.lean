import OData.Proofs.Json.Descent
import OData.Proofs.Text.KeyOrder

/-!
# Places in a document

Looking something up in a document gives the same whether its members have been put in order before
or are put in order afterwards (`at?_normal`). Looking up takes the last of several members of one
name, while a descent takes the first. **Where no name on the way is repeated, a descent finds the
list that is looked up** (`at?_of_descent?`).
-/

set_option autoImplicit false

namespace OData.Json

open OData.Text

/-! ## Documents in order -/

theorem normalItems_eq_map (items : List Json) : normalItems items = items.map normal := by
  induction items with
  | nil => rfl
  | cons v items ih => rw [normalItems, ih, List.map_cons]

theorem normalMembers_eq_map (members : List (String × Json)) :
    normalMembers members = members.map fun (k, v) => (k, v.normal) := by
  induction members with
  | nil => rfl
  | cons m members ih =>
    obtain ⟨k, v⟩ := m
    rw [normalMembers, ih, List.map_cons]

theorem lastOf?_normalMembers (name : String) (members : List (String × Json)) :
    lastOf? name (normalMembers members) = (lastOf? name members).map normal := by
  rw [normalMembers_eq_map]
  unfold lastOf?
  rw [← List.map_reverse, List.find?_map, Option.map_map, Option.map_map]
  rfl

/-- A member of a document in order is the member of the document, put in order. -/
theorem member?_normal (name : String) (v : Json) :
    v.normal.member? name = (v.member? name).map normal := by
  cases v with
  | object members =>
    calc (object members).normal.member? name
        = lastOf? name (keyOrdered (normalMembers members)) := by rw [normal]; rfl
      _ = (lastOf? name members).map normal := by
        rw [lastOf?_keyOrdered, lastOf?_normalMembers]
  | list items => rw [normal]; rfl
  | _ => rfl

/-- What is at a place of a document in order is what is at that place of the document, put in
order. -/
theorem at?_normal (place : Place) (v : Json) :
    v.normal.at? place = (v.at? place).map normal := by
  induction place generalizing v with
  | nil => rfl
  | cons names rest ih =>
    have hmember : (fun name => v.normal.member? name) =
        Option.map normal ∘ fun name => v.member? name :=
      funext fun name => member?_normal name v
    unfold at?
    rw [hmember, ← List.map_findSome?]
    cases names.findSome? fun name => v.member? name with
    | none => rfl
    | some u => exact ih u

/-- Only a list is a list when it has been put in order. -/
theorem eq_list_of_normal {v : Json} {items : List Json} (h : v.normal = list items) :
    ∃ raw, v = list raw ∧ items = raw.map normal := by
  cases v with
  | list raw =>
    rw [normal, normalItems_eq_map] at h
    cases h
    exact ⟨raw, rfl, rfl⟩
  | _ =>
    rw [normal] at h
    cases h

/-! ## Paths -/

/-- The names of the members of an object as they are written. -/
def memberNames : Json → List String
  | object members => members.map Prod.fst
  | _ => []

/-- The place at the end of a path that has no alternatives. -/
def placeOf (path : List String) : Place := path.map fun name => [name]

/-- No name is repeated in the objects on the way along a path. -/
def DistinctAlong : List String → Json → Prop
  | [], _ => True
  | name :: path, v =>
    v.memberNames.Nodup ∧ ∀ u, v.member? name = some u → DistinctAlong path u

theorem at?_placeOf_cons {name : String} {path : List String} {v u : Json}
    (h : v.member? name = some u) : v.at? (placeOf (name :: path)) = u.at? (placeOf path) := by
  change ([name].findSome? fun name => v.member? name).bind (at? (placeOf path)) = _
  rw [List.findSome?_singleton, h, Option.bind_some]

theorem at?_singleton (name : String) (v : Json) : v.at? [[name]] = v.member? name := by
  change ([name].findSome? fun name => v.member? name).bind some = _
  rw [List.findSome?_singleton, Option.bind_fun_some]

section

variable {name : String} {down : Json → Option (Option Nat × List Json)}
  {members : List (String × Json)}

/-- Members of other names lead nowhere. -/
theorem foldlM_descendMember_of_ne (h : ∀ m ∈ members, m.1 ≠ name)
    (found : Option Nat × List Json) :
    members.foldlM (descendMember [name] down) found = some found := by
  induction members with
  | nil => rfl
  | cons m members ih =>
    have hm : descendMember [name] down found m = some found := by
      apply if_neg
      rintro ⟨-, hname⟩
      exact h m List.mem_cons_self (List.mem_singleton.mp hname)
    rw [List.foldlM_cons, hm]
    exact ih fun m hm => h m (List.mem_cons_of_mem _ hm)

/-- The way down an object is through its only member of the name. -/
theorem foldlM_descendMember (hnames : (members.map Prod.fst).Nodup) {u : Json}
    (hmem : (name, u) ∈ members) :
    members.foldlM (descendMember [name] down) (none, []) = down u := by
  obtain ⟨before, after, rfl⟩ := List.append_of_mem hmem
  rw [List.map_append, List.map_cons, List.nodup_append] at hnames
  obtain ⟨-, hafter, hbefore⟩ := hnames
  have hskip : before.foldlM (descendMember [name] down) (none, []) = some (none, []) := by
    apply foldlM_descendMember_of_ne
    intro m hm
    exact hbefore m.1 (List.mem_map_of_mem hm) name List.mem_cons_self
  have hdown : descendMember [name] down (none, []) (name, u) = down u := by
    unfold descendMember
    rw [if_pos ⟨rfl, List.mem_singleton_self name⟩]
    cases down u <;> rfl
  rw [List.foldlM_append, hskip]
  show ((name, u) :: after).foldlM (descendMember [name] down) (none, []) = _
  rw [List.foldlM_cons, hdown]
  cases down u with
  | none => rfl
  | some found =>
    apply foldlM_descendMember_of_ne
    rintro m hm rfl
    exact (List.nodup_cons.mp hafter).1 (List.mem_map.mpr ⟨m, hm, rfl⟩)

end

/-- What a descent comes to behind the first name on its way. -/
theorem descent?_placeOf_cons {name : String} {path : List String} {v u : Json}
    (hv : v.memberNames.Nodup) (h : v.member? name = some u) :
    descent? (placeOf (name :: path)) v = descent? (placeOf path) u := by
  cases v with
  | object members => exact foldlM_descendMember hv (mem_of_lastOf? h)
  | _ => cases h

/-- Where the first name leads nowhere, a descent finds nothing. -/
theorem descent?_placeOf_cons_of_none {name : String} {path : List String} {v : Json}
    (hv : v.memberNames.Nodup) (h : v.member? name = none) {found : Option Nat × List Json}
    (hfound : descent? (placeOf (name :: path)) v = some found) : found = (none, []) := by
  cases v with
  | object members =>
    have hne : ∀ m ∈ members, m.1 ≠ name := by
      rintro ⟨k, u⟩ hm rfl
      exact Option.some_ne_none u ((lastOf?_of_mem hv hm).symm.trans h)
    exact Option.some.inj (hfound.symm.trans (foldlM_descendMember_of_ne hne _))
  | _ => cases hfound

/-- **Where no name on the way is repeated, a descent finds the list that is looked up.** -/
theorem at?_of_descent? {path : List String} {v : Json} (hv : DistinctAlong path v) {n : Nat}
    {items : List Json} (h : descent? (placeOf path) v = some (some n, items)) :
    v.at? (placeOf path) = some (.list items) ∧ n = items.length := by
  induction path generalizing v with
  | nil =>
    cases v <;> cases h
    exact ⟨rfl, rfl⟩
  | cons name path ih =>
    obtain ⟨hnames, hrest⟩ := hv
    cases hu : v.member? name with
    | none => cases descent?_placeOf_cons_of_none hnames hu h
    | some u =>
      rw [descent?_placeOf_cons hnames hu] at h
      rw [at?_placeOf_cons hu]
      exact ih (hrest u hu) h

/-- **Where no name on the way is repeated, a list that is looked up is found by a descent.** -/
theorem descent?_of_at? {path : List String} {v : Json} (hv : DistinctAlong path v)
    {items : List Json} (h : v.at? (placeOf path) = some (.list items)) :
    descent? (placeOf path) v = some (some items.length, items) := by
  induction path generalizing v with
  | nil =>
    cases h
    rfl
  | cons name path ih =>
    obtain ⟨hnames, hrest⟩ := hv
    cases hu : v.member? name with
    | none =>
      change ([name].findSome? fun name => v.member? name).bind _ = _ at h
      rw [List.findSome?_singleton, hu] at h
      cases h
    | some u =>
      rw [at?_placeOf_cons hu] at h
      rw [descent?_placeOf_cons hnames hu]
      exact ih (hrest u hu) h

end OData.Json
