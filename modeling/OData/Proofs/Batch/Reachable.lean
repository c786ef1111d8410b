import Mathlib.Data.List.Nodup
import OData.Batch
import OData.Proofs.Link.Escaped

/-!
# Batches that can come about

`Reachable` is every batch that can be made out of an empty one: its settings are changed, requests
are taken in one by one, changesets are begun, filled and then ended or dropped. What holds of all of
them is `Sound`: **the Content-IDs ascend in the order of the parts** and stay below the counter,
which fits into 32 bits, and the resource paths are escaped. So **a Content-ID leads back to the one
request that got it** (`Sound.itemOf?_of_mem`).
-/

set_option autoImplicit false

namespace OData.Batch

open OData.Text

def items (b : Batch) : List Item := b.parts.flatMap Part.items

/-! ## Steps -/

/-- Whether one more request can be numbered: the counter has 32 bits and is moved on. -/
def HasRoom (b : Batch) : Prop := b.nextId + 1 < UInt32.size

instance (b : Batch) : Decidable b.HasRoom := inferInstanceAs (Decidable (_ < _))

inductive Fills (b : Batch) : Open → Prop where
  | begin : Fills b b.beginChangeset
  | add {o o' : Open} (expected : String) (r : Request) :
      Fills b o → o.batch.HasRoom → o.add expected r = .ok o' → Fills b o'

/-- What can be done to a batch. A request that is refused leaves it as it was. -/
inductive Step (b : Batch) : Batch → Prop where
  /-- The service path and the protocol are fixed when the batch is made. -/
  | configure {c : Context} : c.servicePath = b.context.servicePath →
      c.protocol = b.context.protocol → Step b { b with context := c }
  | add {b' : Batch} (expected : String) (r : Request) :
      b.HasRoom → b.add expected r = .ok b' → Step b b'
  | finish {o : Open} : Fills b o → Step b o.finish
  | discard {o : Open} : Fills b o → Step b o.discard

inductive Reachable : Batch → Prop where
  | of (servicePath : String) (p : Protocol) (guids : Nat → Guid) :
      Reachable (Batch.of servicePath p guids)
  | step {b b' : Batch} : Reachable b → Step b b' → Reachable b'

/-! ## Taking in a request -/

theorem asItem_eq_ok {b : Batch} {expected : String} {r : Request} {i : Item}
    (h : b.asItem expected r = .ok i) :
    r.operation.name = expected ∧ r.protocol = b.context.protocol ∧ i.contentId = b.nextId ∧
      i.request = r ∧ ∃ uri, r.uri .batch = .ok uri ∧
        uri.toList =
          Link.serviceRoot .batch b.context.servicePath.toList ++ i.resourcePath.toList := by
  unfold asItem at h
  dsimp only at h
  split at h
  · cases h
  next hname =>
  split at h
  · cases h
  next uri huri =>
  split at h
  · cases h
  next path hpath =>
  split at h
  · cases h
  next hprotocol =>
  cases h
  refine ⟨Decidable.not_not.mp hname, Decidable.not_not.mp hprotocol, rfl, rfl, uri, huri, ?_⟩
  rw [dropPrefix?_eq_some_iff.mp hpath, String.toList_ofList]

/-- The path of an item that is taken in comes out of an escaped URI. -/
theorem escaped_of_asItem {b : Batch} {expected : String} {r : Request} {i : Item}
    (h : b.asItem expected r = .ok i) : Escaped i.resourcePath.toList := by
  obtain ⟨-, -, -, -, uri, huri, hpath⟩ := asItem_eq_ok h
  have he : Escaped uri.toList := escaped_uri (by decide) huri
  rw [hpath] at he
  exact he.of_subset (List.subset_append_right _ _)

theorem add_eq_ok {b b' : Batch} {expected : String} {r : Request}
    (h : b.add expected r = .ok b') :
    ∃ i, b.asItem expected r = .ok i ∧
      b' = { b with parts := b.parts ++ [.single i], nextId := b.nextId + 1 } := by
  unfold add at h
  cases hi : b.asItem expected r with
  | error f =>
    rw [hi] at h
    cases h
  | ok i =>
    rw [hi] at h
    cases h
    exact ⟨i, rfl, rfl⟩

theorem Open.add_eq_ok {o o' : Open} {expected : String} {r : Request}
    (h : o.add expected r = .ok o') :
    ∃ i, o.batch.asItem expected r = .ok i ∧
      o' = ⟨{ o.batch with nextId := o.batch.nextId + 1 }, o.items ++ [i]⟩ := by
  unfold add at h
  cases hi : o.batch.asItem expected r with
  | error f =>
    rw [hi] at h
    cases h
  | ok i =>
    rw [hi] at h
    cases h
    exact ⟨i, rfl, rfl⟩

/-! ## Numbering -/

/-- Items in the order of their Content-IDs, which are below `next`, with escaped paths. -/
structure Numbered (items : List Item) (next : Nat) : Prop where
  ascending : (items.map Item.contentId).Pairwise (· < ·)
  below : ∀ i ∈ items, i.contentId < next
  escaped : ∀ i ∈ items, Escaped i.resourcePath.toList

namespace Numbered

theorem nil (next : Nat) : Numbered [] next := ⟨.nil, by simp, by simp⟩

theorem concat {items : List Item} {next : Nat} (h : Numbered items next) {i : Item}
    (hid : i.contentId = next) (he : Escaped i.resourcePath.toList) :
    Numbered (items ++ [i]) (next + 1) where
  ascending := by
    rw [List.map_append, List.pairwise_append]
    refine ⟨h.ascending, List.pairwise_singleton _ _, ?_⟩
    intro k hk n hn
    obtain ⟨j, hj, rfl⟩ := List.mem_map.mp hk
    rw [List.map_singleton, List.mem_singleton] at hn
    rw [hn, hid]
    exact h.below j hj
  below := by
    intro j hj
    rcases List.mem_append.mp hj with hj | hj
    · exact Nat.lt_succ_of_lt (h.below j hj)
    · rw [List.mem_singleton.mp hj, hid]
      exact Nat.lt_succ_self next
  escaped := by
    intro j hj
    rcases List.mem_append.mp hj with hj | hj
    · exact h.escaped j hj
    · rw [List.mem_singleton.mp hj]
      exact he

theorem left {items dropped : List Item} {next : Nat} (h : Numbered (items ++ dropped) next) :
    Numbered items next where
  ascending := by
    have ha := h.ascending
    rw [List.map_append] at ha
    exact (List.pairwise_append.mp ha).1
  below := by
    intro i hi
    exact h.below i (by simp [hi])
  escaped := by
    intro i hi
    exact h.escaped i (by simp [hi])

theorem unique {items : List Item} {next : Nat} (h : Numbered items next) {i j : Item}
    (hi : i ∈ items) (hj : j ∈ items) (hid : i.contentId = j.contentId) : i = j := by
  have hn : (items.map Item.contentId).Nodup := h.ascending.imp Nat.ne_of_lt
  exact List.inj_on_of_nodup_map hn hi hj hid

end Numbered

/-- What holds of every batch that can come about. -/
structure Sound (b : Batch) : Prop where
  numbered : Numbered b.items b.nextId
  fits : b.nextId < UInt32.size

/-! ## Every step keeps it -/

theorem sound_of (servicePath : String) (p : Protocol) (guids : Nat → Guid) :
    (Batch.of servicePath p guids).Sound :=
  ⟨.nil 1, show 1 < UInt32.size by decide⟩

/-- The items of an open changeset are numbered after those of the batch, whose parts stay. -/
theorem Fills.numbered {b : Batch} (hb : b.Sound) {o : Open} (ho : Fills b o) :
    o.batch.parts = b.parts ∧ Numbered (b.items ++ o.items) o.batch.nextId ∧
      o.batch.nextId < UInt32.size := by
  induction ho with
  | begin =>
    have hitems : b.beginChangeset.items = [] := rfl
    refine ⟨rfl, ?_, hb.fits⟩
    rw [hitems, List.append_nil]
    exact hb.numbered
  | add _ _ _ hroom hadd ih =>
    obtain ⟨hparts, hnumbered, -⟩ := ih
    obtain ⟨i, hi, rfl⟩ := Open.add_eq_ok hadd
    obtain ⟨-, -, hid, -⟩ := asItem_eq_ok hi
    refine ⟨hparts, ?_, hroom⟩
    rw [← List.append_assoc]
    exact hnumbered.concat hid (escaped_of_asItem hi)

/-- **One step keeps the numbering**, whatever it does to the batch. A changeset that is dropped
takes its numbers with it, and they are not given out again. -/
theorem Step.sound {b b' : Batch} (h : Step b b') (hb : b.Sound) : b'.Sound := by
  cases h with
  | configure _ _ => exact ⟨hb.numbered, hb.fits⟩
  | add _ _ hroom hadd =>
    obtain ⟨i, hi, rfl⟩ := add_eq_ok hadd
    obtain ⟨-, -, hid, -⟩ := asItem_eq_ok hi
    refine ⟨?_, hroom⟩
    have hitems : items { b with parts := b.parts ++ [.single i], nextId := b.nextId + 1 } =
        b.items ++ [i] := by
      rw [items, List.flatMap_append]
      rfl
    rw [hitems]
    exact hb.numbered.concat hid (escaped_of_asItem hi)
  | @finish o ho =>
    obtain ⟨hparts, hnumbered, hfits⟩ := ho.numbered hb
    refine ⟨?_, hfits⟩
    have hitems : o.finish.items = b.items ++ o.items := by
      rw [items, Open.finish, List.flatMap_append, hparts, List.flatMap_singleton]
      rfl
    rw [hitems]
    exact hnumbered
  | @discard o ho =>
    obtain ⟨hparts, hnumbered, hfits⟩ := ho.numbered hb
    refine ⟨?_, hfits⟩
    -- The counter stays where the changeset left it.
    have hitems : o.discard.items = b.items := congrArg (List.flatMap Part.items) hparts
    rw [hitems]
    exact hnumbered.left

theorem Reachable.sound {b : Batch} (h : Reachable b) : b.Sound := by
  induction h with
  | of servicePath p guids => exact sound_of servicePath p guids
  | step _ hs ih => exact hs.sound ih

/-- A read, a changeset with one request and a changeset without any. -/
def sampleBatch : Batch :=
  { Batch.of "/service" .v4 fun k => ⟨0, k.toUInt64⟩ with
    parts :=
      [.single ⟨1, .of "/service" (.of "Set") .v4 (.read ""), "Set"⟩,
        .changeset ⟨⟨0, 1⟩, [⟨2, .of "/service" (.of "Set") .v4 (.create "{}"), "Set"⟩]⟩,
        .changeset ⟨⟨0, 2⟩, []⟩]
    drawn := 3
    nextId := 3 }

theorem reachable_sampleBatch : sampleBatch.Reachable := by
  have h₀ := Reachable.of "/service" .v4 fun k => ⟨0, k.toUInt64⟩
  have h₁ := h₀.step (.add "read" (.of "/service" (.of "Set") .v4 (.read "")) (by decide) rfl)
  have h₂ := h₁.step (.finish (.add "create"
    (.of "/service" (.of "Set") .v4 (.create "{}")) .begin (by decide) rfl))
  exact h₂.step (.finish .begin)

/-! ## Looking up -/

/-- What is found in the parts that are left after those before them, which the index counts. -/
theorem itemAt?_positionIn? {b : Batch} (before : List Part) {parts : List Part}
    (hb : b.parts = before ++ parts) (k : Nat) :
    (positionIn? k before.length parts).bind b.itemAt? =
      (parts.flatMap Part.items).find? (·.contentId == k) := by
  induction parts generalizing before with
  | nil => rfl
  | cons part parts ih =>
    have hpart : b.parts[before.length]? = some part := by
      rw [hb, List.getElem?_append_right (Nat.le_refl _), Nat.sub_self, List.getElem?_cons_zero]
    have hrest := ih (before ++ [part]) (by rw [hb, List.append_assoc]; rfl)
    rw [List.length_append, List.length_singleton] at hrest
    rw [List.flatMap_cons, List.find?_append]
    cases part with
    | single i =>
      rw [positionIn?, Part.items, List.find?_singleton]
      by_cases hk : i.contentId = k
      · rw [if_pos hk, if_pos (beq_iff_eq.mpr hk), Option.bind_some, itemAt?, hpart]
        rfl
      · rw [if_neg hk, if_neg (by simpa using hk), hrest, Option.none_or]
    | changeset c =>
      rw [positionIn?, Part.items, List.find?_eq_bind_findIdx?_getElem?]
      cases hk : c.items.findIdx? (·.contentId == k) with
      | none => rw [Option.bind_none, Option.none_or, hrest]
      | some n =>
        -- An index that was found is inside the changeset.
        have hn : c.items[n]? ≠ none := by
          obtain ⟨hlt, -⟩ := List.findIdx?_eq_some_iff_getElem.mp hk
          simp [hlt]
        obtain ⟨i, hi⟩ := Option.ne_none_iff_exists'.mp hn
        rw [Option.bind_some, Option.bind_some, itemAt?, hpart]
        dsimp only
        rw [hi, Option.some_or]

/-- **Looking up finds the first item with the number**, wherever it stands. -/
theorem itemOf?_eq_find? (b : Batch) (k : Nat) :
    b.itemOf? k = b.items.find? (·.contentId == k) :=
  itemAt?_positionIn? [] rfl k

theorem Sound.itemOf?_of_mem {b : Batch} (hb : b.Sound) {i : Item} (hi : i ∈ b.items) :
    b.itemOf? i.contentId = some i := by
  rw [itemOf?_eq_find?]
  cases hf : b.items.find? (·.contentId == i.contentId) with
  | none => exact absurd (beq_self_eq_true _) (List.find?_eq_none.mp hf i hi)
  | some j =>
    have hid : j.contentId = i.contentId := by simpa using List.find?_some hf
    rw [hb.numbered.unique (List.mem_of_find?_eq_some hf) hi hid]

end OData.Batch
