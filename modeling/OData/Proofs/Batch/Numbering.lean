import OData.Proofs.Batch.Reachable

/-!
# The numbers of the requests in a batch

A batch is put together by acts on a `Draft`: the batch itself, or a changeset that is open in it.
Offering a request is one of them, and it is accepted or refused; a `Run` keeps a log of that. **The
counter is one ahead of the number of requests accepted so far** (`Draft.Run.stands`), those of
dropped changesets included, and so that is the Content-ID which the next one gets.

The numbers of a batch ascend, so they tell its items apart, and **the position of an item and its
number lead to each other** (`locates_of_ascending`).
-/

set_option autoImplicit false

namespace OData.Batch

/-! ## Putting a batch together -/

/-- A batch that requests are put into. A changeset holds on to its batch: while it is open there is
no way to the batch but through it. -/
inductive Draft where
  | whole (b : Batch)
  | filling (o : Open)

namespace Draft

def batch : Draft → Batch
  | whole b => b
  | filling o => o.batch

/-- The items of the changeset that is open. -/
def pending : Draft → List Item
  | whole _ => []
  | filling o => o.items

inductive Act where
  | offer (expected : String) (r : Request)
  | beginChangeset
  | finish
  | discard

/-- What came of an act. -/
inductive Outcome where
  | taken
  | refused (f : Failure)
  /-- No request was offered. -/
  | done

def Outcome.accepted : Outcome → Nat
  | taken => 1
  | refused _ | done => 0

/-- The draft with a request in its open changeset, or in the batch if there is none. -/
def add (d : Draft) (expected : String) (r : Request) : Except Failure Draft :=
  match d with
  | whole b => (b.add expected r).map whole
  | filling o => (o.add expected r).map filling

/-- Offers a request to the draft, which stays as it is if it refuses. -/
def offer (d : Draft) (expected : String) (r : Request) : Outcome × Draft :=
  match d.add expected r with
  | .ok d' => (.taken, d')
  | .error f => (.refused f, d)

/-- What comes of an act and the draft after it; nothing if the act is out of turn. -/
def act : Draft → Act → Option (Outcome × Draft)
  | d, .offer expected r => some (d.offer expected r)
  | whole b, .beginChangeset => some (.done, filling b.beginChangeset)
  | filling o, .finish => some (.done, whole o.finish)
  | filling o, .discard => some (.done, whole o.discard)
  | filling _, .beginChangeset | whole _, .finish | whole _, .discard => none

/-- A run of acts from `start`, with what came of each, oldest first. -/
inductive Run (start : Draft) : List Outcome → Draft → Prop where
  | start : Run start [] start
  | act {log : List Outcome} {d d' : Draft} {a : Act} {o : Outcome} (before : Run start log d)
      (step : d.act a = some (o, d')) : Run start (log ++ [o]) d'

/-- How many requests have been accepted according to a log. -/
def acceptedIn (log : List Outcome) : Nat := log.foldl (fun n o => n + o.accepted) 0

theorem acceptedIn_concat (log : List Outcome) (o : Outcome) :
    acceptedIn (log ++ [o]) = acceptedIn log + o.accepted := by
  unfold acceptedIn
  rw [List.foldl_append]
  rfl

theorem items_add (b : Batch) (i : Item) :
    items { b with parts := b.parts ++ [.single i], nextId := b.nextId + 1 } = b.items ++ [i] := by
  unfold items
  simp [Part.items]

/-! ## One act -/

/-- The items of the batch and of the open changeset once `i` has been put where requests go. -/
def itemsWith (d : Draft) (i : Item) : List Item × List Item :=
  match d with
  | whole b => (b.items ++ [i], [])
  | filling o => (o.batch.items, o.items ++ [i])

/-- The drafts that can come about. -/
inductive Grown : Draft → Prop where
  | whole {b : Batch} (hb : Reachable b) : Grown (whole b)
  | filling {b : Batch} {o : Open} (hb : Reachable b) (ho : Fills b o) : Grown (filling o)

/-- What accepting a request makes of a draft: it stands at the end, under the number of the
counter, which moves on. -/
structure Accepts (d : Draft) (r : Request) (d' : Draft) : Prop where
  item : ∃ i : Item, i.request = r ∧ i.contentId = d.batch.nextId ∧
    (d'.batch.items, d'.pending) = d.itemsWith i
  counter : d'.batch.nextId = d.batch.nextId + 1
  grows : d.batch.HasRoom → d.Grown → d'.Grown

theorem exists_of_map_eq_ok {ε α β : Type} {x : Except ε α} {f : α → β} {b : β}
    (h : x.map f = .ok b) : ∃ a, x = .ok a ∧ f a = b := by
  cases x with
  | error e => cases h
  | ok a => exact ⟨a, rfl, Except.ok.inj h⟩

theorem accepts_of_add {d d' : Draft} {expected : String} {r : Request}
    (h : d.add expected r = .ok d') : d.Accepts r d' := by
  cases d with
  | whole b =>
    obtain ⟨b', hadd, rfl⟩ := exists_of_map_eq_ok h
    obtain ⟨i, hi, hb'⟩ := add_eq_ok hadd
    obtain ⟨-, -, hid, hr, -⟩ := asItem_eq_ok hi
    refine ⟨⟨i, hr, hid, ?_⟩, ?_, ?_⟩
    · subst hb'
      exact congrArg (·, []) (items_add b i)
    · subst hb'
      rfl
    · intro hroom hgrown
      cases hgrown with
      | whole hb => exact .whole (hb.step (.add expected r hroom hadd))
  | filling o =>
    obtain ⟨o', hadd, rfl⟩ := exists_of_map_eq_ok h
    obtain ⟨i, hi, ho'⟩ := Open.add_eq_ok hadd
    obtain ⟨-, -, hid, hr, -⟩ := asItem_eq_ok hi
    refine ⟨⟨i, hr, hid, ?_⟩, ?_, ?_⟩
    · subst ho'
      rfl
    · subst ho'
      rfl
    · intro hroom hgrown
      cases hgrown with
      | filling hb ho => exact .filling hb (ho.add expected r hroom hadd)

/-! ## Runs -/

/-- What holds between two acts: the counter tells the number of requests accepted so far. -/
structure Stands (d : Draft) (accepted : Nat) : Prop where
  counter : d.batch.nextId = accepted + 1
  grown : d.Grown

theorem Stands.offer {d : Draft} {n : Nat} (h : d.Stands n) (expected : String) (r : Request)
    {o : Outcome} {d' : Draft} (hoffer : d.offer expected r = (o, d'))
    (hfits : n + o.accepted < UInt32.size - 1) : d'.Stands (n + o.accepted) := by
  unfold Draft.offer at hoffer
  cases hadd : d.add expected r with
  | error f =>
    rw [hadd] at hoffer
    cases hoffer
    exact h
  | ok d₁ =>
    rw [hadd] at hoffer
    cases hoffer
    obtain ⟨-, hcounter, hgrows⟩ := accepts_of_add hadd
    rw [h.counter] at hcounter
    refine ⟨hcounter, hgrows ?_ h.grown⟩
    show d.batch.nextId + 1 < UInt32.size
    rw [h.counter]
    exact Nat.add_lt_of_lt_sub hfits

/-- **An act keeps the count**, as long as the numbers fit into 32 bits. -/
theorem Stands.act {d d' : Draft} {n : Nat} (h : d.Stands n) {a : Act} {o : Outcome}
    (hact : d.act a = some (o, d')) (hfits : n + o.accepted < UInt32.size - 1) :
    d'.Stands (n + o.accepted) := by
  cases a with
  | offer expected r => exact h.offer expected r (Option.some.inj hact) hfits
  | beginChangeset =>
    obtain ⟨hcounter, hgrown⟩ := h
    cases hgrown with
    | whole hb =>
      cases hact
      exact ⟨hcounter, .filling hb .begin⟩
    | filling => cases hact
  | finish =>
    obtain ⟨hcounter, hgrown⟩ := h
    cases hgrown with
    | whole => cases hact
    | filling hb ho =>
      cases hact
      exact ⟨hcounter, .whole (hb.step (.finish ho))⟩
  | discard =>
    obtain ⟨hcounter, hgrown⟩ := h
    cases hgrown with
    | whole => cases hact
    | filling hb ho =>
      cases hact
      exact ⟨hcounter, .whole (hb.step (.discard ho))⟩

theorem Run.stands {servicePath : String} {p : Protocol} {guids : Nat → Guid}
    {log : List Outcome} {d : Draft} (h : Run (whole (Batch.of servicePath p guids)) log d)
    (hfits : acceptedIn log < UInt32.size - 1) : d.Stands (acceptedIn log) := by
  induction h with
  | start => exact ⟨rfl, .whole (.of servicePath p guids)⟩
  | act before step ih =>
    rw [acceptedIn_concat] at hfits ⊢
    exact (ih (Nat.lt_of_le_of_lt (Nat.le_add_right _ _) hfits)).act step hfits

/-- All items of a draft are numbered in their order, those of an open changeset after the others.
-/
theorem Grown.numbered {d : Draft} (h : d.Grown) :
    Numbered (d.batch.items ++ d.pending) d.batch.nextId ∧ d.batch.nextId < UInt32.size := by
  cases h with
  | whole hb =>
    obtain ⟨hnumbered, hfits⟩ := hb.sound
    simp only [batch, pending, List.append_nil]
    exact ⟨hnumbered, hfits⟩
  | filling hb ho =>
    obtain ⟨hparts, hnumbered, hfits⟩ := ho.numbered hb.sound
    simp only [batch, pending, items, hparts]
    exact ⟨hnumbered, hfits⟩

end Draft

/-! ## Positions -/

/-- The item at a place in a part. -/
def Part.itemAt? : Part → Option Nat → Option Item
  | .single i, none => some i
  | .changeset c, some k => c.items[k]?
  | .single _, some _ | .changeset _, none => none

theorem itemAt?_eq_bind (b : Batch) (p : Position) :
    b.itemAt? p = b.parts[p.part]?.bind (·.itemAt? p.inChangeset) := by
  obtain ⟨n, k⟩ := p
  unfold itemAt?
  rcases b.parts[n]? with _ | (i | c) <;> cases k <;> rfl

theorem Part.mem_of_itemAt? {part : Part} {k : Option Nat} {i : Item}
    (h : part.itemAt? k = some i) : i ∈ part.items := by
  cases part with
  | single j =>
    cases k with
    | none =>
      cases h
      exact List.mem_singleton_self _
    | some k => cases h
  | changeset c =>
    cases k with
    | none => cases h
    | some k => exact List.mem_of_getElem? h

/-- Inside a part, too, a number stands in one place only. -/
theorem Part.itemAt?_inj {part : Part} (hn : (part.items.map Item.contentId).Nodup)
    {k l : Option Nat} {i j : Item} (hi : part.itemAt? k = some i) (hj : part.itemAt? l = some j)
    (hid : i.contentId = j.contentId) : k = l := by
  cases part with
  | single _ =>
    cases k with
    | some k => cases hi
    | none =>
      cases l with
      | some l => cases hj
      | none => rfl
  | changeset c =>
    cases k with
    | none => cases hi
    | some k =>
      cases l with
      | none => cases hj
      | some l =>
        have hlt : k < (c.items.map Item.contentId).length := by
          rw [List.length_map]
          exact (List.getElem?_eq_some_iff.mp hi).1
        have hsame : (c.items.map Item.contentId)[k]? = (c.items.map Item.contentId)[l]? := by
          rw [List.getElem?_map, List.getElem?_map, show c.items[k]? = some i from hi,
            show c.items[l]? = some j from hj, Option.map_some, Option.map_some, hid]
        rw [(List.getElem?_inj hlt hn).mp hsame]

section

variable {b : Batch} (hb : (b.items.map Item.contentId).Pairwise (· < ·))

include hb

/-- The numbers in a part are below those in every later one. -/
theorem contentId_lt_of_part_lt {m n : Nat} {s t : Part} (hs : b.parts[m]? = some s)
    (ht : b.parts[n]? = some t) (hmn : m < n) {i j : Item} (hi : i ∈ s.items) (hj : j ∈ t.items) :
    i.contentId < j.contentId := by
  unfold items at hb
  rw [List.map_flatMap, List.pairwise_flatMap] at hb
  obtain ⟨hm, rfl⟩ := List.getElem?_eq_some_iff.mp hs
  obtain ⟨hn, rfl⟩ := List.getElem?_eq_some_iff.mp ht
  have hlt := List.pairwise_iff_getElem.mp hb.2 m n hm hn hmn
  exact hlt _ (List.mem_map_of_mem hi) _ (List.mem_map_of_mem hj)

theorem itemAt?_inj {p q : Position} {i j : Item} (hp : b.itemAt? p = some i)
    (hq : b.itemAt? q = some j) (hid : i.contentId = j.contentId) : p = q := by
  obtain ⟨m, k⟩ := p
  obtain ⟨n, l⟩ := q
  rw [itemAt?_eq_bind] at hp hq
  obtain ⟨s, hs, hi⟩ := Option.bind_eq_some_iff.mp hp
  obtain ⟨t, ht, hj⟩ := Option.bind_eq_some_iff.mp hq
  dsimp only at hs hi ht hj
  rcases Nat.lt_trichotomy m n with hmn | rfl | hnm
  · have hlt := contentId_lt_of_part_lt hb hs ht hmn (Part.mem_of_itemAt? hi)
      (Part.mem_of_itemAt? hj)
    rw [hid] at hlt
    exact absurd hlt (Nat.lt_irrefl _)
  · obtain rfl : s = t := Option.some.inj (hs.symm.trans ht)
    have hn : (s.items.map Item.contentId).Nodup := by
      unfold items at hb
      rw [List.map_flatMap, List.pairwise_flatMap] at hb
      exact (hb.1 s (List.mem_of_getElem? hs)).imp Nat.ne_of_lt
    rw [Part.itemAt?_inj hn hi hj hid]
  · have hlt := contentId_lt_of_part_lt hb ht hs hnm (Part.mem_of_itemAt? hj)
      (Part.mem_of_itemAt? hi)
    rw [hid] at hlt
    exact absurd hlt (Nat.lt_irrefl _)

end

theorem isSome_positionIn? (k index : Nat) (parts : List Part) :
    (positionIn? k index parts).isSome = (parts.flatMap Part.items).any (·.contentId == k) := by
  induction parts generalizing index with
  | nil => rfl
  | cons part parts ih =>
    rw [List.flatMap_cons, List.any_append, ← ih (index + 1)]
    cases part with
    | single i =>
      rw [positionIn?]
      by_cases hk : i.contentId = k
      · simp [hk, Part.items]
      · simp [hk, Part.items]
    | changeset c =>
      rw [positionIn?, show (Part.changeset c).items = c.items from rfl, ← List.findIdx?_isSome]
      cases c.items.findIdx? (·.contentId == k) with
      | none => simp
      | some n => simp

theorem mem_of_itemAt? {b : Batch} {p : Position} {i : Item} (h : b.itemAt? p = some i) :
    i ∈ b.items := by
  rw [itemAt?_eq_bind] at h
  obtain ⟨part, hpart, hi⟩ := Option.bind_eq_some_iff.mp h
  exact List.mem_flatMap.mpr ⟨part, List.mem_of_getElem? hpart, Part.mem_of_itemAt? hi⟩

/-- Where a number is found, there is an item with it. -/
theorem itemAt?_of_positionOf? {b : Batch} {k : Nat} {p : Position} (h : b.positionOf? k = some p) :
    ∃ i, b.itemAt? p = some i ∧ i.contentId = k := by
  have hany := isSome_positionIn? k 0 b.parts
  have hfind := itemAt?_positionIn? (b := b) [] rfl k
  change positionIn? k 0 b.parts = some p at h
  rw [h, Option.isSome_some] at hany
  change (positionIn? k 0 b.parts).bind b.itemAt? = _ at hfind
  rw [h, Option.bind_some] at hfind
  cases hi : (b.parts.flatMap Part.items).find? (·.contentId == k) with
  | none =>
    obtain ⟨i, hmem, hk⟩ := List.any_eq_true.mp hany.symm
    exact absurd hk (List.find?_eq_none.mp hi i hmem)
  | some i =>
    rw [hi] at hfind
    exact ⟨i, hfind, by simpa using List.find?_some hi⟩

/-- **A number and the position of its item lead to each other.** -/
structure Locates (b : Batch) : Prop where
  /-- Every item is found by its number. -/
  found : ∀ i ∈ b.items, ∃ p, b.positionOf? i.contentId = some p ∧ b.itemAt? p = some i
  /-- Where a number is found, there is an item with it. -/
  held : ∀ k p, b.positionOf? k = some p → ∃ i ∈ b.items, i.contentId = k ∧ b.itemAt? p = some i
  /-- The item at a position is found there by its number. -/
  back : ∀ p i, b.itemAt? p = some i → b.positionOf? i.contentId = some p

theorem locates_of_ascending {b : Batch} (hb : (b.items.map Item.contentId).Pairwise (· < ·)) :
    b.Locates := by
  have hfound : ∀ i ∈ b.items, ∃ p, b.positionOf? i.contentId = some p ∧ b.itemAt? p = some i := by
    intro i hi
    have hsome : (b.positionOf? i.contentId).isSome = true := by
      refine (isSome_positionIn? i.contentId 0 b.parts).trans ?_
      exact List.any_eq_true.mpr ⟨i, hi, beq_self_eq_true _⟩
    obtain ⟨p, hp⟩ := Option.isSome_iff_exists.mp hsome
    obtain ⟨j, hj, hid⟩ := itemAt?_of_positionOf? hp
    have hn : (b.items.map Item.contentId).Nodup := hb.imp Nat.ne_of_lt
    rw [List.inj_on_of_nodup_map hn (mem_of_itemAt? hj) hi hid] at hj
    exact ⟨p, hp, hj⟩
  refine ⟨hfound, ?_, ?_⟩
  · intro k p hp
    obtain ⟨i, hi, hid⟩ := itemAt?_of_positionOf? hp
    exact ⟨i, mem_of_itemAt? hi, hid, hi⟩
  · intro p i hp
    obtain ⟨q, hq, hi⟩ := hfound i (mem_of_itemAt? hp)
    rw [itemAt?_inj hb hp hi rfl]
    exact hq

namespace Draft

/-- **The numbers in every run of acts on a new batch.** The request that is offered next gets one
more than the number of those accepted so far, or leaves everything as it is; and the items of the
batch ascend in their numbers, which fit into 32 bits and by which they are found. -/
theorem contentIds_of_run {servicePath : String} {p : Protocol} {guids : Nat → Guid}
    {log : List Outcome} {d : Draft} (h : Run (whole (Batch.of servicePath p guids)) log d)
    (hfits : acceptedIn log < UInt32.size - 1) :
    (∀ expected r o d', d.offer expected r = (o, d') →
      match o with
      | .taken => ∃ i : Item, i.request = r ∧ i.contentId = 1 + acceptedIn log ∧
          (d'.batch.items, d'.pending) = d.itemsWith i
      | .refused _ => d'.batch.items = d.batch.items ∧ d'.pending = d.pending ∧
          d'.batch.nextId = d.batch.nextId
      | .done => False) ∧
    (d.batch.items.map Item.contentId).Pairwise (· < ·) ∧
    (∀ i ∈ d.batch.items, i.contentId < UInt32.size) ∧
    d.batch.Locates := by
  obtain ⟨hcounter, hgrown⟩ := h.stands hfits
  obtain ⟨hnumbered, hlt⟩ := hgrown.numbered
  have hitems : Numbered d.batch.items d.batch.nextId := hnumbered.left
  refine ⟨?_, hitems.ascending, ?_, locates_of_ascending hitems.ascending⟩
  · intro expected r o d' hoffer
    unfold offer at hoffer
    cases hadd : d.add expected r with
    | error f =>
      rw [hadd] at hoffer
      cases hoffer
      exact ⟨rfl, rfl, rfl⟩
    | ok d₁ =>
      rw [hadd] at hoffer
      cases hoffer
      obtain ⟨i, hr, hid, hplace⟩ := (accepts_of_add hadd).item
      refine ⟨i, hr, ?_, hplace⟩
      rw [hid, hcounter, Nat.add_comm]
  · intro i hi
    exact Nat.lt_trans (hitems.below i hi) hlt

/-- A new batch, one with a read in it, and one that also has a changeset with a creation. -/
def newBatch : Batch := .of "/service" .v4 fun k => ⟨0, k.toUInt64⟩

def readSet : Request := .of "/service" (.of "Set") .v4 (.read "")

def createInSet : Request := .of "/service" (.of "Set") .v4 (.create "{}")

def filledBatch : Batch :=
  { newBatch with
    parts := [.single ⟨1, readSet, "Set"⟩, .changeset ⟨⟨0, 1⟩, [⟨3, createInSet, "Set"⟩]⟩]
    drawn := 2
    nextId := 4 }

/-- A creation that is refused as it has no place outside changesets, and a changeset that is
dropped, on the way to it. -/
theorem run_filledBatch :
    ∃ log, acceptedIn log = 3 ∧ Run (whole newBatch) log (whole filledBatch) := by
  have h : Run (whole newBatch) [] (whole newBatch) := .start
  have h := h.act (a := .offer "read" readSet) rfl
  have h := h.act (a := .offer "read" createInSet) rfl
  have h := h.act (a := .beginChangeset) rfl
  have h := h.act (a := .offer "create" createInSet) rfl
  have h := h.act (a := .discard) rfl
  have h := h.act (a := .beginChangeset) rfl
  have h := h.act (a := .offer "create" createInSet) rfl
  exact ⟨_, rfl, h.act (a := .finish) rfl⟩

/-- The number of the dropped request is not given out again. -/
theorem contentIds_of_run_filledBatch :
    (∃ log, Run (whole newBatch) log (whole filledBatch) ∧ acceptedIn log = 3 ∧
      acceptedIn log < UInt32.size - 1) ∧
    filledBatch.items.map Item.contentId = [1, 3] ∧
    filledBatch.positionOf? 3 = some ⟨1, some 0⟩ ∧
    ∃ i, ((whole filledBatch).offer "read" readSet).2.batch.items = filledBatch.items ++ [i] ∧
      i.contentId = 4 := by
  obtain ⟨log, hlog, hrun⟩ := run_filledBatch
  have hfits : acceptedIn log < UInt32.size - 1 := by
    rw [hlog]
    decide
  obtain ⟨hnext, -, -, hlocates⟩ := contentIds_of_run hrun hfits
  refine ⟨⟨log, hrun, hlog, hfits⟩, rfl, ?_, ?_⟩
  · exact hlocates.back ⟨1, some 0⟩ ⟨3, createInSet, "Set"⟩ rfl
  · obtain ⟨i, -, hid, hitems⟩ := hnext "read" readSet .taken _ rfl
    rw [hlog] at hid
    exact ⟨i, congrArg Prod.fst hitems, hid⟩

end Draft

end OData.Batch
