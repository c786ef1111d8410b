import OData.Proofs.Json.Nest

/-!
# Where a descent has gone astray

A descent comes to nothing as soon as there is something else on its way than it expects, but the
machine that builds the document goes on to its end. Which containers are on the way is told by what
is open (`Way`). Once a machine is inside a container from which nothing can come, or has passed
something from which nothing came, it is `Lost`: **whatever is still read, it stays lost**
(`Lost.step`, `Lost.run`), so the document that it may complete is one in which the descent fails
(`Lost.complete?`).
-/

set_option autoImplicit false

namespace OData.Json

/-! ## On the way and off it -/

/-- The open containers are those on the way down to `place`, and the rest of the way, `left`, leads
through the next value. -/
inductive Way (place : Place) : List (Frame Empty) → Place → Prop where
  | root : Way place [] place
  | level {stack : List (Frame Empty)} {names : List String} {left : Place}
      {members : List (String × Json)} {name : String} {items : List Json}
      (outer : Way place stack (names :: left))
      (h : members.reverse.foldlM (descendMember names (descent? left)) (none, []) =
        some (none, items)) (hname : name ∈ names) :
      Way place (.object members name :: stack) left

/-- A container in which a descent to `place` comes to nothing, whatever is still put into it. -/
inductive Barren : Place → Frame Empty → Prop where
  | list {names : List String} {left : Place} (items : List Json) :
      Barren (names :: left) (.list .any items)
  | object (members : List (String × Json)) (name : String) : Barren [] (.object members name)
  | spoilt {names : List String} {left : Place} {members : List (String × Json)} (name : String)
      (h : members.reverse.foldlM (descendMember names (descent? left)) (none, []) = none) :
      Barren (names :: left) (.object members name)

/-- One of the open containers is on the way and barren. -/
inductive Astray (place : Place) : List (Frame Empty) → Prop where
  | here {stack : List (Frame Empty)} {left : Place} {frame : Frame Empty}
      (way : Way place stack left) (barren : Barren left frame) : Astray place (frame :: stack)
  | inList {stack : List (Frame Empty)} (items : List Json) (outer : Astray place stack) :
      Astray place (.list .any items :: stack)
  | inObject {stack : List (Frame Empty)} (members : List (String × Json)) (name : String)
      (outer : Astray place stack) : Astray place (.object members name :: stack)

/-- No descent to `place` succeeds in a document that the machine may still complete. -/
inductive Lost (place : Place) (a : Machine Empty) : Prop where
  | faulted (h : a.Faulted)
  | after (h : Astray place a.stack) (ha : a.phase = .afterValue)
  | reading (h : Astray place a.stack)
      (phase : Abreast (.build .any) false a.stack a.phase a.phase)
  | finished {v : Json} (ha : a.phase = .afterValue) (hs : a.stack = [])
      (hr : a.result = some (.value v)) (hv : descent? place v = none)

/-- Where a machine descends, the machine beside it is on the way. -/
theorem Nest.way {ρ : Type} {place : Place} {sa : List (Frame Empty)} {sb : List (Frame ρ)}
    {handed : List Json} (h : Nest place sa sb handed) {left : Place} {element : Shape ρ}
    (hw : wanted place sa sb = .descend left element) : Way place sa left := by
  induction h generalizing left element with
  | root =>
    cases hw
    exact .root
  | @push sa sb _ _ _ _ _ inner ih =>
    generalize hout : wanted place sa sb = w at inner
    cases inner with
    | @level names rest members name found items handed hfold =>
      change (if found = none ∧ name ∈ names then Want.descend rest .any else .skip) = _ at hw
      split at hw
      · next hleads =>
        cases hw
        obtain ⟨rfl, hname⟩ := hleads
        exact .level (ih hout) hfold hname
      · cases hw
    | _ => cases hw

theorem foldlM_reverse_cons_none {σ α : Type} (f : σ → α → Option σ) {s : σ} {xs : List α} (x : α)
    (h : xs.reverse.foldlM f s = none) : (x :: xs).reverse.foldlM f s = none := by
  rw [List.reverse_cons, List.foldlM_append, h]
  rfl

section

variable {place : Place} {a : Machine Empty}

/-! ## Values that are complete -/

/-- A value from which nothing comes has been read on the way. -/
theorem Way.lost_deliver {left : Place} (h : Way place a.stack left) {v : Json}
    (hv : descent? left v = none) : Lost place (a.deliver (.value v)) := by
  obtain ⟨phase, stack, handed, result⟩ := a
  dsimp only at h
  cases h with
  | root => exact .finished rfl rfl rfl hv
  | @level stack names left members name items outer hfold hname =>
    refine .after (.here outer (.spoilt name ?_)) rfl
    rw [foldlM_reverse_cons _ (name, v) hfold, descendMember, if_pos ⟨rfl, hname⟩, hv]
    rfl

/-- Nothing that is put into a barren container changes that. -/
theorem Astray.lost_deliver (h : Astray place a.stack) (v : Json) :
    Lost place (a.deliver (.value v)) := by
  obtain ⟨phase, stack, handed, result⟩ := a
  dsimp only at h
  cases h with
  | here way barren =>
    cases barren with
    | list items => exact .after (.here way (.list (v :: items))) rfl
    | object members name => exact .after (.here way (.object ((name, v) :: members) name)) rfl
    | spoilt name hfold =>
      exact .after (.here way (.spoilt name (foldlM_reverse_cons_none _ _ hfold))) rfl
  | inList items outer => exact .after (.inList (v :: items) outer) rfl
  | inObject members name outer => exact .after (.inObject ((name, v) :: members) name outer) rfl

theorem lost_ite {p : Prop} [Decidable p] {a' : Machine Empty} {c : Nat} (h : Lost place a') :
    Lost place (if p then a' else a.faultAt c) := by
  split
  · exact h
  · exact .faulted (a.faulted_faultAt c)

/-- What a barren container comes to is of no use either. -/
theorem Astray.lost_closeAt (h : Astray place a.stack) (c : Nat) :
    Lost place (a.closeAt noRecords c) := by
  obtain ⟨phase, stack, handed, result⟩ := a
  dsimp only at h
  cases h with
  | @here stack left _ way barren =>
    have hclose : ∀ {v}, descent? left v = none →
        Lost place (Machine.deliver ⟨phase, stack, handed, result⟩ (.value v)) :=
      fun hv => Way.lost_deliver (a := ⟨phase, stack, handed, result⟩) way hv
    cases barren with
    | list items => exact lost_ite (hclose rfl)
    | object members name => exact lost_ite (hclose rfl)
    | spoilt name hfold => exact lost_ite (hclose hfold)
  | @inList stack items outer =>
    exact lost_ite (Astray.lost_deliver (a := ⟨phase, stack, handed, result⟩) outer _)
  | @inObject stack members name outer =>
    exact lost_ite (Astray.lost_deliver (a := ⟨phase, stack, handed, result⟩) outer _)

/-! ## Containers that are opened -/

/-- The containers that a machine that builds everything opens. -/
theorem lost_openList (h : Astray place (.list .any [] :: a.stack)) :
    Lost place (a.openList noRecords (.build .any)) := by
  change Lost place (a.openFrame _ _ _)
  unfold Machine.openFrame
  split
  · exact .reading h (.value true)
  · exact .faulted (a.faulted_faultAt _)

theorem lost_openObject (h : Astray place (.object [] "" :: a.stack)) :
    Lost place (a.openObject (.build .any)) := by
  change Lost place (a.openFrame _ _ _)
  unfold Machine.openFrame
  split
  · exact .reading h (.name true ⟨_, _, _, rfl⟩)
  · exact .faulted (a.faulted_faultAt _)

theorem Astray.lost_beginValue (h : Astray place a.stack) (c : Nat) :
    Lost place (a.beginValue noRecords (.build .any) c) := by
  unfold Machine.beginValue
  split
  · exact .reading h (.quotation _ (by rintro ⟨⟩))
  split
  · exact lost_openList (.inList [] h)
  split
  · exact lost_openObject (.inObject [] "" h)
  split
  · exact .reading h (.word _ leadsNowhere_null)
  split
  · exact .reading h (.word _ (leadsNowhere_boolean true))
  split
  · exact .reading h (.word _ (leadsNowhere_boolean false))
  split
  · exact .reading h (.numeral _)
  · exact .faulted (a.faulted_faultAt c)

/-! ## Separators -/

theorem Astray.lost_afterValue (h : Astray place a.stack) (ha : a.phase = .afterValue) (c : Nat) :
    Lost place (a.afterValue noRecords c) := by
  unfold Machine.afterValue
  split
  · exact .after h ha
  split
  · -- There is another value in a list, and another name in an object.
    obtain ⟨phase, stack, handed, result⟩ := a
    have hlist : ∀ {stack items}, Astray place (.list .any items :: stack) →
        Lost place ⟨.value (.build .any) false, .list .any items :: stack, handed, result⟩ :=
      fun h => .reading h (.value false)
    have hobject : ∀ {stack members name}, Astray place (.object members name :: stack) →
        Lost place ⟨.name false, .object members name :: stack, handed, result⟩ :=
      fun h => .reading h (.name false ⟨_, _, _, rfl⟩)
    dsimp only at h
    have hall := h
    cases h with
    | here way barren =>
      cases barren with
      | list => exact hlist hall
      | object => exact hobject hall
      | spoilt => exact hobject hall
    | inList => exact hlist hall
    | inObject => exact hobject hall
  · exact h.lost_closeAt c

theorem Lost.afterValue (h : Lost place a) (ha : a.phase = .afterValue) (c : Nat) :
    Lost place (a.afterValue noRecords c) := by
  cases h with
  | faulted h =>
    obtain ⟨waiting, h⟩ := h
    rw [ha] at h
    cases h
  | after h => exact h.lost_afterValue ha c
  | reading _ phase =>
    rw [ha] at phase
    cases phase
  | finished _ hs hr hv =>
    -- Nothing may follow the document.
    unfold Machine.afterValue Machine.closeAt
    rw [hs]
    split
    · exact .finished ha hs hr hv
    · split <;> exact .faulted (a.faulted_faultAt c)

/-- The name of a member is kept with the members of the object. -/
theorem Astray.named {members : List (String × Json)} {name : String}
    {stack : List (Frame Empty)} (h : Astray place (.object members name :: stack))
    (name' : String) : Astray place (.object members name' :: stack) := by
  cases h with
  | here way barren =>
    cases barren with
    | object => exact .here way (.object members name')
    | spoilt _ hfold => exact .here way (.spoilt name' hfold)
  | inObject _ _ outer => exact .inObject members name' outer

/-! ## One byte -/

theorem Astray.lost_memberName (h : Astray place a.stack) (ho : InObject a.stack) {q : Quotation}
    (ha : a.phase = .memberName q) (byte : UInt8) : Lost place (a.step noRecords byte) := by
  rw [Machine.step_memberName noRecords byte ha, isSkipping_of_inObject ho]
  cases q.step (!false) byte with
  | more q => exact .reading h (.memberName q ho rfl)
  | malformed => exact .faulted a.faulted_fault
  | done bytes =>
    dsimp only
    rw [if_neg Bool.false_ne_true]
    cases Quotation.text? bytes with
    | none => exact .faulted a.faulted_fault
    | some name =>
      obtain ⟨phase, stack, handed, result⟩ := a
      obtain ⟨members, earlier, stack, rfl⟩ := ho
      exact .reading (h.named name) .colon

theorem Astray.lost_quotation (h : Astray place a.stack) {q : Quotation}
    (ha : a.phase = .quotation q (.build .any)) (byte : UInt8) :
    Lost place (a.step noRecords byte) := by
  rw [Machine.step_quotation noRecords byte ha]
  cases q.step _ byte with
  | more q => exact .reading h (.quotation q (by rintro ⟨⟩))
  | malformed => exact .faulted a.faulted_fault
  | done bytes =>
    dsimp only
    rw [if_pos (show (Want.build .any : Want Empty).isKept = true from rfl)]
    cases Quotation.text? bytes with
    | none => exact .faulted a.faulted_fault
    | some s => exact h.lost_deliver (.text s)

theorem Astray.lost_numeral (h : Astray place a.stack) {n : Numeral}
    (ha : a.phase = .numeral n (.build .any)) (byte : UInt8) :
    Lost place (a.step noRecords byte) := by
  rw [Machine.step_numeral noRecords byte ha]
  cases n.step _ byte.toNat with
  | more n => exact .reading h (.numeral n)
  | malformed taken =>
    cases taken with
    | true => exact .faulted a.faulted_fault
    | false => exact .faulted (a.faulted_faultAt _)
  | done =>
    dsimp only
    cases hnumber : a.number? (.build .any) n with
    | none => exact .faulted (a.faulted_faultAt _)
    | some a' =>
      obtain ⟨v, -, hv⟩ := Option.bind_eq_some_iff.mp hnumber
      cases hv
      exact (h.lost_deliver v).afterValue (a.phase_deliver _) _

theorem Astray.lost_word (h : Astray place a.stack) {rest : List Nat} {v : Json}
    (hv : LeadsNowhere v) (ha : a.phase = .word rest v (.build .any)) (byte : UInt8) :
    Lost place (a.step noRecords byte) := by
  rw [Machine.step_word noRecords byte ha]
  split
  · exact .faulted a.faulted_fault
  · split
    · exact h.lost_deliver v
    · exact .faulted a.faulted_fault
  · split
    · exact .reading h (.word _ hv)
    · exact .faulted a.faulted_fault

/-- **Whatever comes next**, a machine that is lost stays lost. -/
theorem Lost.step (h : Lost place a) (byte : UInt8) : Lost place (a.step noRecords byte) := by
  cases h with
  | faulted h => exact .faulted (h.step noRecords byte)
  | after h ha =>
    rw [Machine.step_afterValue noRecords byte ha]
    exact h.lost_afterValue ha _
  | finished ha hs hr hv =>
    rw [Machine.step_afterValue noRecords byte ha]
    exact (finished ha hs hr hv).afterValue ha _
  | reading h phase =>
    generalize ha : a.phase = pa at phase
    cases phase with
    | value orEnd =>
      rw [Machine.step_value noRecords byte ha]
      split
      · exact .reading h (by rw [ha]; exact .value orEnd)
      split
      · exact h.lost_closeAt _
      · exact h.lost_beginValue _
    | name orEnd ho =>
      rw [Machine.step_name noRecords byte ha]
      split
      · exact .reading h (by rw [ha]; exact .name orEnd ho)
      split
      · exact .reading h (.memberName {} ho rfl)
      split
      · exact h.lost_closeAt _
      · exact .faulted (a.faulted_faultAt _)
    | colon =>
      rw [Machine.step_colon noRecords byte ha]
      split
      · exact .reading h (by rw [ha]; exact .colon)
      split
      · exact .reading h (.value false)
      · exact .faulted (a.faulted_faultAt _)
    | memberName q ho => exact h.lost_memberName ho ha byte
    | skimmedName _ hs => cases hs
    | quotation q => exact h.lost_quotation ha byte
    | numeral n => exact h.lost_numeral ha byte
    | word rest hv => exact h.lost_word hv ha byte

theorem Lost.run (h : Lost place a) (bytes : List UInt8) :
    Lost place (a.run noRecords bytes).1 := by
  induction bytes generalizing a with
  | nil => exact h
  | cons byte bytes ih =>
    unfold Machine.run
    split
    · exact h
    · exact ih (h.step byte)

theorem Lost.ended (h : Lost place a) : Lost place a.ended := by
  have hsame := h
  unfold Machine.ended
  split
  · next n want ha =>
    cases h with
    | reading h phase =>
      rw [ha] at phase
      cases phase
      split
      · cases hnumber : a.number? (.build .any) n with
        | none => exact .faulted a.faulted_fault
        | some a' =>
          obtain ⟨v, -, hv⟩ := Option.bind_eq_some_iff.mp hnumber
          cases hv
          exact h.lost_deliver v
      · exact hsame
    | faulted h =>
      obtain ⟨waiting, h⟩ := h
      rw [ha] at h
      cases h
    | after _ h =>
      rw [ha] at h
      cases h
    | finished h =>
      rw [ha] at h
      cases h
  · exact h

/-- **In what a machine that is lost completes**, the descent fails. -/
theorem Lost.complete? (h : Lost place a) {v : Json} (ha : a.complete? = some (.value v)) :
    descent? place v = none := by
  unfold Machine.complete? at ha
  cases h with
  | faulted h =>
    obtain ⟨waiting, h⟩ := h
    rw [h] at ha
    cases ha
  | after h hphase =>
    rw [hphase] at ha
    cases hs : a.stack with
    | nil =>
      rw [hs] at h
      cases h
    | cons frame stack =>
      rw [hs] at ha
      cases ha
  | reading _ phase =>
    generalize a.phase = pa at phase ha
    cases phase <;> cases ha
  | finished hphase hs hr hv =>
    rw [hphase, hs, hr] at ha
    cases ha
    exact hv

end

end OData.Json
