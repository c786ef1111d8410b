import OData.Json.Shape
import OData.Proofs.Json.Trees

/-!
# What is kept of a document

`keep?` says what a machine that builds a shape makes of a document as it is written: it differs from
`fit?`, which says what a shape makes of a tree, in refusing a record with a field that is there
twice (`fit?_of_keep?`). Of a record, its known fields are kept, each in its own shape, and nothing
else (`keepMembers?_eq`).

Records that are written as lists are left out here: no writer makes any.
-/

set_option autoImplicit false

namespace OData.Json

variable {ρ : Type} (schema : Schema ρ)

mutual

/-- What is kept of a value that is written where the shape is expected. -/
def keep? (s : Shape ρ) : Json → Option Json
  | .list items =>
    match s.core with
    | .any => some (.list items)
    | .list element => (keepItems? element items).map .list
    | _ => none
  | .object members =>
    match s.core with
    | .any | .object => some (.object members)
    | .record kind =>
      (keepMembers? (schema kind) [] members).bind fun kept =>
        if hasFields (schema kind) kept then some (.object kept) else none
    | _ => none
  | .null => s.scalar? .null
  | .boolean b => s.scalar? (.boolean b)
  | .integer i => s.scalar? (.integer i)
  | .number d => s.scalar? (.number d)
  | .text t => s.scalar? (.text t)

def keepItems? (element : Shape ρ) : List Json → Option (List Json)
  | [] => some []
  | v :: r => (keep? element v).bind fun v => (keepItems? element r).map (v :: ·)

/-- The fields of a record, after those that have been kept already, newest first. -/
def keepMembers? (fields : List (Field ρ)) :
    List (String × Json) → List (String × Json) → Option (List (String × Json))
  | kept, [] => some kept.reverse
  | kept, (k, v) :: r =>
    match fieldOf? fields k with
    | none => keepMembers? fields kept r
    | some f =>
      if kept.any (·.1 == k) then none
      else (keep? f.shape v).bind fun v => keepMembers? fields ((k, v) :: kept) r

end

variable {schema}

theorem keep?_of_isScalar {v : Json} (h : v.IsScalar) (s : Shape ρ) :
    keep? schema s v = s.scalar? v := by
  cases v with
  | list => cases h
  | object => cases h
  | _ => rfl

/-- Where anything is expected, everything is kept. -/
theorem keep?_any (v : Json) : keep? schema .any v = some v := by
  cases v <;> rfl

theorem keepItems?_any (items : List Json) : keepItems? schema .any items = some items := by
  induction items with
  | nil => rfl
  | cons v items ih => rw [keepItems?, keep?_any, ih]; rfl

/-! ## What is kept fits -/

mutual

theorem fit?_of_keep? : ∀ {s : Shape ρ} {v w : Json}, keep? schema s v = some w →
    fit? schema s v = some w
  | s, .list items, w, h => by
    rw [keep?] at h
    rw [fit?]
    generalize s.core = core at h ⊢
    cases core with
    | any => exact h
    | list element =>
      obtain ⟨ws, hws, rfl⟩ := Option.map_eq_some_iff.mp h
      dsimp only
      rw [fitItems?_of_keepItems? hws]
      rfl
    | _ => cases h
  | s, .object members, w, h => by
    rw [keep?] at h
    rw [fit?]
    generalize s.core = core at h ⊢
    cases core with
    | any => exact h
    | object => exact h
    | record kind =>
      obtain ⟨ws, hws, hfields⟩ := Option.bind_eq_some_iff.mp h
      obtain ⟨ws', hfit, rfl⟩ := fitMembers?_of_keepMembers? hws
      dsimp only
      rw [hfit]
      exact hfields
    | _ => cases h
  | _, .null, _, h | _, .boolean _, _, h | _, .integer _, _, h | _, .number _, _, h
  | _, .text _, _, h => h

theorem fitItems?_of_keepItems? : ∀ {element : Shape ρ} {items ws : List Json},
    keepItems? schema element items = some ws → fitItems? schema element items = some ws
  | _, [], _, h => h
  | element, v :: items, ws, h => by
    rw [keepItems?] at h
    obtain ⟨w, hw, h⟩ := Option.bind_eq_some_iff.mp h
    obtain ⟨rest, hrest, rfl⟩ := Option.map_eq_some_iff.mp h
    rw [fitItems?, fit?_of_keep? hw, Option.bind_some, fitItems?_of_keepItems? hrest]
    rfl

theorem fitMembers?_of_keepMembers? : ∀ {fields : List (Field ρ)}
    {kept members ws : List (String × Json)}, keepMembers? schema fields kept members = some ws →
    ∃ ws', fitMembers? schema fields members = some ws' ∧ ws = kept.reverse ++ ws'
  | _, kept, [], ws, h => by
    cases h
    exact ⟨[], rfl, (List.append_nil _).symm⟩
  | fields, kept, (k, v) :: members, ws, h => by
    rw [keepMembers?] at h
    split at h
    · next hnone =>
      obtain ⟨ws', hfit, rfl⟩ := fitMembers?_of_keepMembers? h
      refine ⟨ws', ?_, rfl⟩
      rw [fitMembers?, hnone]
      exact hfit
    · next f hf =>
      split at h
      · cases h
      · obtain ⟨w, hw, h⟩ := Option.bind_eq_some_iff.mp h
        obtain ⟨ws', hfit, rfl⟩ := fitMembers?_of_keepMembers? h
        refine ⟨(k, w) :: ws', ?_, ?_⟩
        · rw [fitMembers?, hf]
          dsimp only
          rw [fit?_of_keep? hw, Option.bind_some, hfit]
          rfl
        · rw [List.reverse_cons, List.append_assoc]
          rfl

end

/-- What has been kept already stays in front. -/
theorem mem_of_keepMembers? {fields : List (Field ρ)} {kept members ws : List (String × Json)}
    (h : keepMembers? schema fields kept members = some ws) {p : String × Json} (hp : p ∈ kept) :
    p ∈ ws := by
  obtain ⟨ws', -, rfl⟩ := fitMembers?_of_keepMembers? h
  exact List.mem_append_left _ (List.mem_reverse.mpr hp)

/-! ## What is kept is no deeper -/

theorem isScalar_of_scalar? {s : Shape ρ} {v w : Json} (hv : v.IsScalar)
    (h : s.scalar? v = some w) : w.IsScalar := by
  induction s with
  | any =>
    cases h
    exact hv
  | optional s ih =>
    cases v with
    | null =>
      cases h
      trivial
    | list => cases hv
    | object => cases hv
    | _ => exact ih h
  | integer low high =>
    cases v with
    | integer i =>
      rw [Shape.scalar?] at h
      split at h
      · cases h
        trivial
      · cases h
    | _ => cases h
  | _ =>
    cases v <;> cases h <;> trivial

theorem depth_le_of_isScalar {s : Shape ρ} {v w : Json} (h : keep? schema s v = some w)
    (hv : v.IsScalar) : w.depth ≤ v.depth := by
  rw [keep?_of_isScalar hv] at h
  rw [(isScalar_of_scalar? hv h).depth]
  exact Nat.zero_le _

mutual

theorem depth_le_of_keep? : ∀ {s : Shape ρ} {v w : Json}, keep? schema s v = some w →
    w.depth ≤ v.depth
  | s, .list items, w, h => by
    rw [keep?] at h
    split at h
    · cases h
      exact Nat.le_refl _
    · obtain ⟨ws, hws, rfl⟩ := Option.map_eq_some_iff.mp h
      exact Nat.succ_le_succ (depth_le_of_keepItems? hws)
    · cases h
  | s, .object members, w, h => by
    rw [keep?] at h
    split at h
    · cases h
      exact Nat.le_refl _
    · cases h
      exact Nat.le_refl _
    · obtain ⟨ws, hws, h⟩ := Option.bind_eq_some_iff.mp h
      split at h
      · cases h
        refine Nat.succ_le_succ (membersDepth_le fun p hp => ?_)
        exact (depth_le_of_keepMembers? hws p hp).resolve_left List.not_mem_nil
      · cases h
    · cases h
  | _, .null, _, h | _, .boolean _, _, h | _, .integer _, _, h | _, .number _, _, h
  | _, .text _, _, h => depth_le_of_isScalar h trivial

theorem depth_le_of_keepItems? : ∀ {element : Shape ρ} {items ws : List Json},
    keepItems? schema element items = some ws → itemsDepth ws ≤ itemsDepth items
  | _, [], _, h => by
    cases h
    exact Nat.le_refl _
  | element, v :: items, ws, h => by
    rw [keepItems?] at h
    obtain ⟨w, hw, h⟩ := Option.bind_eq_some_iff.mp h
    obtain ⟨rest, hrest, rfl⟩ := Option.map_eq_some_iff.mp h
    have hfirst := depth_le_of_keep? hw
    have hothers := depth_le_of_keepItems? hrest
    rw [itemsDepth, itemsDepth]
    omega

theorem depth_le_of_keepMembers? : ∀ {fields : List (Field ρ)}
    {kept members ws : List (String × Json)}, keepMembers? schema fields kept members = some ws →
    ∀ p ∈ ws, p ∈ kept ∨ p.2.depth ≤ membersDepth members
  | _, kept, [], ws, h => by
    cases h
    intro p hp
    exact .inl (List.mem_reverse.mp hp)
  | fields, kept, (k, v) :: members, ws, h => by
    intro p hp
    rw [keepMembers?] at h
    rw [membersDepth]
    split at h
    · exact (depth_le_of_keepMembers? h p hp).imp_right fun hle =>
        Nat.le_trans hle (Nat.le_max_right _ _)
    · split at h
      · cases h
      · obtain ⟨w, hw, h⟩ := Option.bind_eq_some_iff.mp h
        rcases depth_le_of_keepMembers? h p hp with hmem | hle
        · rcases List.mem_cons.mp hmem with rfl | hmem
          · exact .inr (Nat.le_trans (depth_le_of_keep? hw) (Nat.le_max_left _ _))
          · exact .inl hmem
        · exact .inr (Nat.le_trans hle (Nat.le_max_right _ _))

end

/-! ## Records -/

theorem hasFields_reverse (fields : List (Field ρ)) (members : List (String × Json)) :
    hasFields fields members.reverse = hasFields fields members := by
  unfold hasFields
  simp only [List.any_reverse]

theorem isSome_fieldOf? (fields : List (Field ρ)) (name : String) :
    (fieldOf? fields name).isSome = (fields.map Field.name).contains name := by
  rw [Bool.eq_iff_iff, fieldOf?, List.find?_isSome, List.contains_iff_mem, List.mem_map]
  simp only [beq_iff_eq]

/-- The members that a record has a field for. -/
def known (fields : List (Field ρ)) (members : List (String × Json)) : List (String × Json) :=
  members.filter fun m => (fieldOf? fields m.1).isSome

/-- What is kept of a member that the record has a field for. -/
def keptAs (schema : Schema ρ) (fields : List (Field ρ)) (name : String) (v : Json) : Json :=
  ((fieldOf? fields name).bind fun f => keep? schema f.shape v).getD .null

theorem keptAs_of_keep? {fields : List (Field ρ)} {name : String} {f : Field ρ} {v u : Json}
    (hf : fieldOf? fields name = some f) (hu : keep? schema f.shape v = some u) :
    keptAs schema fields name v = u := by
  rw [keptAs, hf, Option.bind_some, hu, Option.getD_some]

/-- **Of a record its known fields are kept**, if none of them is there twice and each can be kept. -/
theorem keepMembers?_eq {fields : List (Field ρ)} (kept : List (String × Json))
    {members : List (String × Json)}
    (hkeep : ∀ p ∈ members, ∀ f, fieldOf? fields p.1 = some f →
      ∃ u, keep? schema f.shape p.2 = some u)
    (honce : (kept.map Prod.fst ++ (known fields members).map Prod.fst).Nodup) :
    keepMembers? schema fields kept members =
      some (kept.reverse ++
        (known fields members).map fun m => (m.1, keptAs schema fields m.1 m.2)) := by
  induction members generalizing kept with
  | nil => rw [keepMembers?, known, List.filter_nil, List.map_nil, List.append_nil]
  | cons p members ih =>
    obtain ⟨k, v⟩ := p
    obtain ⟨hv, hmembers⟩ := List.forall_mem_cons.mp hkeep
    rw [keepMembers?]
    cases hf : fieldOf? fields k with
    | none =>
      have hknown : known fields ((k, v) :: members) = known fields members :=
        List.filter_cons_of_neg (by simp [hf])
      rw [hknown] at honce ⊢
      exact ih _ hmembers honce
    | some f =>
      obtain ⟨u, hu⟩ := hv f hf
      have hknown : known fields ((k, v) :: members) = (k, v) :: known fields members :=
        List.filter_cons_of_pos (by simp [hf])
      rw [hknown, List.map_cons] at honce
      have hnot : ¬ kept.any (·.1 == k) = true := by
        intro hany
        obtain ⟨q, hq, hqk⟩ := List.any_eq_true.mp hany
        obtain ⟨-, -, hdisjoint⟩ := List.nodup_append.mp honce
        exact hdisjoint q.1 (List.mem_map_of_mem hq) k List.mem_cons_self (eq_of_beq hqk)
      dsimp only
      rw [if_neg hnot, hu, Option.bind_some, hknown, List.map_cons, keptAs_of_keep? hf hu]
      refine (ih _ hmembers ?_).trans ?_
      · exact (List.perm_middle.nodup_iff).mp honce
      · rw [List.reverse_cons, List.append_assoc, List.singleton_append]

end OData.Json
