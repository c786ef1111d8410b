import OData.Proofs.Json.Numerals
import OData.Proofs.Json.Places
import OData.Json.Printer

/-!
# Documents as trees

What can be said of a document through all of its levels: that each of its scalars has some property
(`Every`), how deep it is nested (`depth`), and what is left of it once it has been written and read
back (`reread`), which differs from the document only in its doubles (`reread_of_exact`). Putting the
members of all objects in order can be done before or after that (`normal_reread`), and done once is
done for good (`normal_normal`).
-/

set_option autoImplicit false

namespace OData.Json

open OData.Text OData.Ieee

/-! ## Definitions -/

/-- The value has no others inside. -/
def IsScalar : Json → Prop
  | list _ | object _ => False
  | null | boolean _ | integer _ | number _ | text _ => True

mutual

/-- Every value in the document that is neither a list nor an object has the property. -/
def Every (p : Json → Prop) : Json → Prop
  | list items => EveryItem p items
  | object members => EveryMember p members
  | null => p null
  | boolean b => p (boolean b)
  | integer i => p (integer i)
  | number d => p (number d)
  | text s => p (text s)

def EveryItem (p : Json → Prop) : List Json → Prop
  | [] => True
  | v :: r => v.Every p ∧ EveryItem p r

def EveryMember (p : Json → Prop) : List (String × Json) → Prop
  | [] => True
  | (_, v) :: r => v.Every p ∧ EveryMember p r

end

/-- All integers are of 64 bits, as a document is expected to have them. -/
def IsNative (v : Json) : Prop :=
  v.Every fun
    | integer i => Native i
    | _ => True

/-- All numbers are integers of 64 bits. -/
def IsExact (v : Json) : Prop :=
  v.Every fun
    | integer i => Native i
    | number _ => False
    | _ => True

mutual

/-- How deep lists and objects are nested. -/
def depth : Json → Nat
  | list items => itemsDepth items + 1
  | object members => membersDepth members + 1
  | null | boolean _ | integer _ | number _ | text _ => 0

def itemsDepth : List Json → Nat
  | [] => 0
  | v :: r => max v.depth (itemsDepth r)

def membersDepth : List (String × Json) → Nat
  | [] => 0
  | (_, v) :: r => max v.depth (membersDepth r)

end

/-- The value that the text of a double is read as. -/
def rereadDouble (d : Double) : Json :=
  match d.value with
  | .finite .. => ((Numeral.read? true (doubleChars d)).bind Numeral.value?).getD null
  | .nan | .infinite _ => null

mutual

/-- The document that is read where this one has been written. -/
def reread : Json → Json
  | list items => list (rereadItems items)
  | object members => object (rereadMembers members)
  | null => null
  | boolean b => boolean b
  | integer i => integer i
  | number d => rereadDouble d
  | text s => text s

def rereadItems : List Json → List Json
  | [] => []
  | v :: r => v.reread :: rereadItems r

def rereadMembers : List (String × Json) → List (String × Json)
  | [] => []
  | (k, v) :: r => (k, v.reread) :: rereadMembers r

end

theorem rereadMembers_eq_map (members : List (String × Json)) :
    rereadMembers members = members.map fun m => (m.1, m.2.reread) := by
  induction members with
  | nil => rfl
  | cons m members ih => rw [rereadMembers, ih, List.map_cons]

/-- No member is nested deeper than the members are. -/
theorem depth_le_membersDepth {members : List (String × Json)} {p : String × Json}
    (h : p ∈ members) : p.2.depth ≤ membersDepth members := by
  induction members with
  | nil => cases h
  | cons q members ih =>
    rw [membersDepth]
    rcases List.mem_cons.mp h with rfl | h
    · exact Nat.le_max_left _ _
    · exact Nat.le_trans (ih h) (Nat.le_max_right _ _)

theorem membersDepth_le {members : List (String × Json)} {n : Nat}
    (h : ∀ p ∈ members, p.2.depth ≤ n) : membersDepth members ≤ n := by
  induction members with
  | nil => exact Nat.zero_le n
  | cons p members ih =>
    obtain ⟨hp, hmembers⟩ := List.forall_mem_cons.mp h
    rw [membersDepth]
    exact Nat.max_le.mpr ⟨hp, ih hmembers⟩

/-- What is said of members through the recursion is said of each of them. -/
theorem everyMember_iff {p : Json → Prop} {members : List (String × Json)} :
    EveryMember p members ↔ ∀ m ∈ members, m.2.Every p := by
  induction members with
  | nil => simp [EveryMember]
  | cons m members ih => rw [EveryMember, ih, List.forall_mem_cons]

mutual

/-- A weaker property holds of every scalar where a stronger one does. -/
theorem Every.mono {p q : Json → Prop} (h : ∀ v, p v → q v) : ∀ {v : Json}, v.Every p → v.Every q
  | list _, hv => everyItem_mono h hv
  | object _, hv => everyMember_mono h hv
  | null, hv | boolean _, hv | integer _, hv | number _, hv | text _, hv => h _ hv

theorem everyItem_mono {p q : Json → Prop} (h : ∀ v, p v → q v) : ∀ {items : List Json},
    EveryItem p items → EveryItem q items
  | [], _ => trivial
  | _ :: _, hv => ⟨Every.mono h hv.1, everyItem_mono h hv.2⟩

theorem everyMember_mono {p q : Json → Prop} (h : ∀ v, p v → q v) :
    ∀ {members : List (String × Json)}, EveryMember p members → EveryMember q members
  | [], _ => trivial
  | _ :: _, hv => ⟨Every.mono h hv.1, everyMember_mono h hv.2⟩

end

/-- Where all numbers are integers of 64 bits, all integers are. -/
theorem IsExact.isNative {v : Json} (h : v.IsExact) : v.IsNative := by
  refine Every.mono ?_ h
  intro v hv
  cases v with
  | integer => exact hv
  | _ => trivial

/-! ## Numbers -/

/-- However a numeral is read, no list and no object comes of it. -/
theorem isScalar_of_value? {n : Numeral} {v : Json} (h : n.value? = some v) : v.IsScalar := by
  unfold Numeral.value? at h
  split at h
  · split at h
    · cases h
      trivial
    split at h
    · cases h
      trivial
    · cases h
      trivial
  · obtain ⟨d, -, rfl⟩ := Option.map_eq_some_iff.mp h
    trivial

theorem isScalar_rereadDouble (d : Double) : (rereadDouble d).IsScalar := by
  unfold rereadDouble
  split
  · cases h : (Numeral.read? true (doubleChars d)).bind Numeral.value? with
    | none => trivial
    | some v =>
      obtain ⟨n, -, hv⟩ := Option.bind_eq_some_iff.mp h
      exact isScalar_of_value? hv
  · trivial
  · trivial

/-- Scalars are where nesting ends. -/
theorem IsScalar.depth {v : Json} (h : v.IsScalar) : v.depth = 0 := by
  cases v with
  | list => cases h
  | object => cases h
  | _ => rfl

mutual

/-- What is read back is nested just as deep. -/
theorem depth_reread : ∀ v : Json, v.reread.depth = v.depth
  | list items => congrArg (· + 1) (itemsDepth_reread items)
  | object members => congrArg (· + 1) (membersDepth_reread members)
  | number d => (isScalar_rereadDouble d).depth
  | null | boolean _ | integer _ | text _ => rfl

theorem itemsDepth_reread : ∀ items : List Json, itemsDepth (rereadItems items) = itemsDepth items
  | [] => rfl
  | v :: items => congrArg₂ max (depth_reread v) (itemsDepth_reread items)

theorem membersDepth_reread : ∀ members : List (String × Json),
    membersDepth (rereadMembers members) = membersDepth members
  | [] => rfl
  | (_, v) :: members => congrArg₂ max (depth_reread v) (membersDepth_reread members)

end

/-! ## Documents without doubles -/

mutual

/-- **Without doubles nothing changes** by writing and reading. The three lemmas go together as the
document, its items and its members do. -/
theorem reread_of_exact : ∀ {v : Json}, v.IsExact → v.reread = v
  | list _, h => congrArg list (rereadItems_of_exact h)
  | object _, h => congrArg object (rereadMembers_of_exact h)
  | number _, h => absurd h id
  | null, _ | boolean _, _ | integer _, _ | text _, _ => rfl

theorem rereadItems_of_exact : ∀ {items : List Json}, (list items).IsExact →
    rereadItems items = items
  | [], _ => rfl
  | _ :: _, h => congrArg₂ List.cons (reread_of_exact h.1) (rereadItems_of_exact h.2)

theorem rereadMembers_of_exact : ∀ {members : List (String × Json)}, (object members).IsExact →
    rereadMembers members = members
  | [], _ => rfl
  | (k, _) :: _, h =>
    congrArg₂ List.cons (congrArg (Prod.mk k) (reread_of_exact h.1)) (rereadMembers_of_exact h.2)

end

/-! ## Documents in order -/

/-- There is nothing to put in order in a scalar. -/
theorem IsScalar.normal {v : Json} (h : v.IsScalar) : v.normal = v := by
  cases v with
  | list => cases h
  | object => cases h
  | _ => rfl

mutual

/-- Members can be put in order before or after writing and reading: doubles change, but no names.
-/
theorem normal_reread : ∀ v : Json, v.reread.normal = v.normal.reread
  | list items => congrArg list (normalItems_reread items)
  | object members => by
    have hmembers := normalMembers_reread members
    rw [reread, normal, normal, reread, hmembers, rereadMembers_eq_map, rereadMembers_eq_map,
      keyOrdered_map]
  | number d => (isScalar_rereadDouble d).normal
  | null | boolean _ | integer _ | text _ => rfl

theorem normalItems_reread : ∀ items : List Json,
    normalItems (rereadItems items) = rereadItems (normalItems items)
  | [] => rfl
  | v :: items => congrArg₂ List.cons (normal_reread v) (normalItems_reread items)

theorem normalMembers_reread : ∀ members : List (String × Json),
    normalMembers (rereadMembers members) = rereadMembers (normalMembers members)
  | [] => rfl
  | (k, v) :: members =>
    congrArg₂ List.cons (congrArg (Prod.mk k) (normal_reread v)) (normalMembers_reread members)

end

mutual

/-- **Putting members in order is done once for all**, through every level. -/
theorem normal_normal : ∀ v : Json, v.normal.normal = v.normal
  | list items => congrArg list (normalItems_normal items)
  | object members => by
    have hmembers := normalMembers_normal members
    rw [normalMembers_eq_map] at hmembers
    rw [normal, normal, normalMembers_eq_map, ← keyOrdered_map, hmembers,
      keyOrdered_of_ascending (ascending_keyOrdered _)]
  | null | boolean _ | integer _ | number _ | text _ => rfl

theorem normalItems_normal : ∀ items : List Json,
    normalItems (normalItems items) = normalItems items
  | [] => rfl
  | v :: items => congrArg₂ List.cons (normal_normal v) (normalItems_normal items)

theorem normalMembers_normal : ∀ members : List (String × Json),
    normalMembers (normalMembers members) = normalMembers members
  | [] => rfl
  | (k, v) :: members =>
    congrArg₂ List.cons (congrArg (Prod.mk k) (normal_normal v)) (normalMembers_normal members)

end

end OData.Json
