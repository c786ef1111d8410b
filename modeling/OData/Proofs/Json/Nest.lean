import OData.Proofs.Json.Machine

/-!
# A document that is descended through

What a descent to a list in a document comes to can be told from the whole tree (`descent?`). A
machine that descends, and one that builds the whole document, read the same bytes in step. What the
one has open is told by what the other has open: a container that is passed over, descended through
or handed out element by element stands beside the same container as it is built (`Twin`, `Nest`),
and both are at the same place in it (`Abreast`).

What is passed over is read less strictly than what is built: strings that are kept go the way of
those that are skimmed (`Quotation.Skims.step`), numbers too (`Numeral.step_keep`), and nothing is
nested deeper than it is built (`Nest.depth_le`).
-/

set_option autoImplicit false

namespace OData.Json

variable {ρ : Type}

/-! ## What a descent comes to -/

/-- One more member of an object on the way. It leads on if its name is one of those looked for and
no member before it has led to a list. -/
def descendMember (names : List String) (down : Json → Option (Option Nat × List Json))
    (found : Option Nat × List Json) (member : String × Json) : Option (Option Nat × List Json) :=
  if found.1 = none ∧ member.1 ∈ names then
    (down member.2).map fun (n, items) => (n, found.2 ++ items)
  else some found

/-- What a descent to a place in a document comes to: the number of the elements, if there is a list
at the place, and the elements. Nothing if there is something else on the way or at the place. -/
def descent? : Place → Json → Option (Option Nat × List Json)
  | [], .list items => some (some items.length, items)
  | names :: rest, .object members =>
    members.foldlM (descendMember names (descent? rest)) (none, [])
  | _, _ => none

/-- No descent can find a list in the value. -/
def LeadsNowhere (v : Json) : Prop := ∀ place, descent? place v = none

theorem leadsNowhere_null : LeadsNowhere null := fun place => by cases place <;> rfl

theorem leadsNowhere_boolean (b : Bool) : LeadsNowhere (boolean b) :=
  fun place => by cases place <;> rfl

theorem leadsNowhere_text (s : String) : LeadsNowhere (text s) := fun place => by cases place <;> rfl

theorem leadsNowhere_of_value? {n : Numeral} {v : Json} (h : n.value? = some v) :
    LeadsNowhere v := by
  intro place
  unfold Numeral.value? at h
  split at h
  · split at h
    · cases h
      cases place <;> rfl
    split at h
    · cases h
      cases place <;> rfl
    · cases h
      cases place <;> rfl
  · obtain ⟨d, -, rfl⟩ := Option.map_eq_some_iff.mp h
    cases place <;> rfl

theorem foldlM_reverse_cons {σ α : Type} (f : σ → α → Option σ) {s t : σ} {xs : List α} (x : α)
    (h : xs.reverse.foldlM f s = some t) : (x :: xs).reverse.foldlM f s = f t x := by
  rw [List.reverse_cons, List.foldlM_append, h]
  simp

/-- Without a list there are no elements. -/
theorem eq_nil_of_foldlM {names : List String} {down : Json → Option (Option Nat × List Json)}
    (hdown : ∀ {v items}, down v = some (none, items) → items = [])
    {members : List (String × Json)} {found found' : Option Nat × List Json}
    (hf : found.1 = none → found.2 = [])
    (h : members.foldlM (descendMember names down) found = some found') (hn : found'.1 = none) :
    found'.2 = [] := by
  induction members generalizing found with
  | nil =>
    cases h
    exact hf hn
  | cons m members ih =>
    rw [List.foldlM_cons] at h
    obtain ⟨next, hnext, h⟩ := Option.bind_eq_some_iff.mp h
    refine ih ?_ h
    intro hnone
    unfold descendMember at hnext
    split at hnext
    · next hleads =>
      obtain ⟨⟨n, items⟩, hv, rfl⟩ := Option.map_eq_some_iff.mp hnext
      obtain rfl : n = none := hnone
      change found.2 ++ items = []
      rw [hf hleads.1, hdown hv, List.append_nil]
    · cases hnext
      exact hf hnone

theorem eq_nil_of_descent? {place : Place} {v : Json} {items : List Json}
    (h : descent? place v = some (none, items)) : items = [] := by
  induction place generalizing v items with
  | nil => cases v <;> cases h
  | cons names rest ih =>
    cases v with
    | object members => exact eq_nil_of_foldlM ih (fun _ => rfl) h rfl
    | _ => cases h

/-- What a machine that wants `w` makes of a value that is built beside it, and the elements that it
hands out on the way. -/
inductive Suits (v : Json) : Want ρ → Item → List Json → Prop where
  | skip : Suits v .skip .skipped []
  | build : Suits v (.build .any) (.value v) []
  | descend {place : Place} {n : Option Nat} {items : List Json}
      (h : descent? place v = some (n, items)) : Suits v (.descend place .any) (.count n) items

/-! ## Open containers -/

/-- A container as it is built, beside the same container where it is wanted as `w`. With the
elements handed out before it was opened and those handed out by now, newest first. -/
inductive Twin : Want ρ → Frame Empty → Frame ρ → List Json → List Json → Prop where
  | list (items handed : List Json) :
      Twin (.build .any) (.list .any items) (.list .any items) handed handed
  | skippedList (items handed : List Json) :
      Twin .skip (.list .any items) .skippedList handed handed
  | elements (items handed : List Json) :
      Twin (.descend [] .any) (.list .any items) (.elements .any items.length) handed
        (items ++ handed)
  | object (members : List (String × Json)) (name : String) (handed : List Json) :
      Twin (.build .any) (.object members name) (.object members name) handed handed
  | skippedObject (members : List (String × Json)) (name : String) (handed : List Json) :
      Twin .skip (.object members name) .skippedObject handed handed
  | level {names : List String} {rest : Place} {members : List (String × Json)} (name : String)
      {found : Option Nat} {items : List Json} (handed : List Json)
      (h : members.reverse.foldlM (descendMember names (descent? rest)) (none, []) =
        some (found, items)) :
      Twin (.descend (names :: rest) .any) (.object members name) (.level names rest .any found)
        handed (items.reverse ++ handed)

/-- What is wanted of the next value in a container. -/
def nextWant : Frame Empty → Frame ρ → Want ρ
  | _, .list element _ | _, .elements element _ => .build element
  | _, .object _ _ => .build .any
  | .object _ name, .level names rest element found =>
    if found = none ∧ name ∈ names then .descend rest element else .skip
  | _, _ => .skip

/-- What is wanted of the next value by a machine that descends to `place`. -/
def wanted (place : Place) : List (Frame Empty) → List (Frame ρ) → Want ρ
  | fa :: _, fb :: _ => nextWant fa fb
  | _, _ => .descend place .any

/-- The open containers of the two machines, with the elements handed out so far, newest first. -/
inductive Nest (place : Place) : List (Frame Empty) → List (Frame ρ) → List Json → Prop where
  | root : Nest place [] [] []
  | push {sa : List (Frame Empty)} {sb : List (Frame ρ)} {fa : Frame Empty} {fb : Frame ρ}
      {before handed : List Json} (outer : Nest place sa sb before)
      (inner : Twin (wanted place sa sb) fa fb before handed) :
      Nest place (fa :: sa) (fb :: sb) handed

theorem Nest.pushed {place : Place} {sa : List (Frame Empty)} {sb : List (Frame ρ)}
    {fa : Frame Empty} {fb : Frame ρ} {before handed : List Json} {w : Want ρ}
    (outer : Nest place sa sb before) (hw : wanted place sa sb = w)
    (inner : Twin w fa fb before handed) : Nest place (fa :: sa) (fb :: sb) handed := by
  subst hw
  exact .push outer inner

/-- Whatever is on the way, a value is passed over, kept as it is or descended into. -/
inductive Plain : Want ρ → Prop where
  | skip : Plain .skip
  | build : Plain (.build .any)
  | descend (place : Place) : Plain (.descend place .any)

theorem Nest.plain {place : Place} {sa : List (Frame Empty)} {sb : List (Frame ρ)}
    {handed : List Json} (h : Nest place sa sb handed) : Plain (wanted place sa sb) := by
  cases h with
  | root => exact .descend place
  | @push sa sb _ _ _ _ _ inner =>
    generalize wanted place sa sb = w at inner
    cases inner with
    | list => exact .build
    | skippedList => exact .skip
    | elements => exact .build
    | object => exact .build
    | skippedObject => exact .skip
    | level name =>
      unfold wanted nextWant
      dsimp only
      split
      · exact .descend _
      · exact .skip

/-- As long as the descent goes on, nothing has been handed out. -/
theorem Nest.handed_eq_nil {place : Place} {sa : List (Frame Empty)} {sb : List (Frame ρ)}
    {handed : List Json} (h : Nest place sa sb handed) {left : Place} {element : Shape ρ}
    (hw : wanted place sa sb = .descend left element) : handed = [] := by
  induction h generalizing left element with
  | root => rfl
  | @push sa sb _ _ _ _ _ inner ih =>
    generalize hout : wanted place sa sb = w at inner
    cases inner with
    | @level names rest members name found items before hfold =>
      change (if found = none ∧ name ∈ names then Want.descend rest .any else .skip) = _ at hw
      split at hw
      · next hleads =>
        obtain rfl : items = [] :=
          eq_nil_of_foldlM (fun h => eq_nil_of_descent? h) (fun _ => rfl) hfold hleads.1
        exact ih hout
      · cases hw
    | _ => cases hw

/-- A container that is passed over counts for nothing, and any other for as much as it is built. -/
theorem Nest.depth_le {place : Place} {sa : List (Frame Empty)} {sb : List (Frame ρ)}
    {handed : List Json} (h : Nest place sa sb handed) :
    (sb.filterMap Frame.closer?).length ≤ (sa.filterMap Frame.closer?).length := by
  induction h with
  | root => exact Nat.le_refl 0
  | @push sa sb _ _ _ _ _ inner ih =>
    generalize wanted place sa sb = w at inner
    cases inner with
    | skippedList => exact Nat.le_succ_of_le ih
    | skippedObject => exact Nat.le_succ_of_le ih
    | _ => exact Nat.succ_le_succ ih

/-! ## What is passed over -/

/-- A string that is kept, beside the same string where it is passed over. The second half of an
escape outside the basic plane is looked for only where the string is kept. -/
inductive Quotation.Skims : Quotation.Stage → Quotation.Stage → Prop where
  | plain : Skims .plain .plain
  | escape : Skims .escape .escape
  | hex (taken : List Nat) (lead : Option Nat) : Skims (.hex taken lead) (.hex taken none)
  | wantBackslash (lead : Nat) : Skims (.wantBackslash lead) .plain
  | wantU (lead : Nat) : Skims (.wantU lead) .escape

/-- One byte of both strings: both go on, or both are at their end, or the one that is kept is
malformed. -/
inductive Quotation.Keeps : Quotation.Next → Quotation.Next → Prop where
  | more {p q : Quotation} (h : Quotation.Skims p.stage q.stage) : Keeps (.more p) (.more q)
  | done (bytes bytes' : List UInt8) : Keeps (.done bytes) (.done bytes')
  | malformed (n : Quotation.Next) : Keeps .malformed n

theorem Quotation.keeps_unit (p : Quotation) (lead : Option Nat) (n : Nat) {q : Quotation}
    (hq : q.stage = .plain) : Quotation.Keeps (p.unit lead n) (.more q) := by
  obtain ⟨stage, bytes⟩ := q
  subst hq
  unfold Quotation.unit
  cases lead with
  | none =>
    dsimp only
    split
    · exact .malformed _
    split
    · exact .more (.wantBackslash n)
    · exact .more .plain
  | some high =>
    dsimp only
    split
    · exact .more .plain
    · exact .malformed _

theorem Quotation.Skims.step {p q : Quotation} (h : Quotation.Skims p.stage q.stage)
    (byte : UInt8) : Quotation.Keeps (p.step true byte) (q.step false byte) := by
  obtain ⟨sp, bp⟩ := p
  obtain ⟨sq, bq⟩ := q
  dsimp only at h
  unfold Quotation.step
  dsimp only
  cases h with
  | plain =>
    dsimp only
    split
    · exact .done _ _
    split
    · exact .more .escape
    split
    · exact .malformed _
    · exact .more .plain
  | escape =>
    dsimp only
    split
    · exact .more (.hex [] none)
    split
    · exact .more .plain
    · exact .malformed _
  | hex taken lead =>
    dsimp only
    split
    · exact .more (.hex _ _)
    split
    · exact .malformed _
    · rw [if_pos rfl, if_neg Bool.false_ne_true]
      exact Quotation.keeps_unit _ lead _ rfl
  | wantBackslash lead =>
    dsimp only
    by_cases hslash : byte.toNat = 0x5C
    · rw [if_pos hslash, if_neg (by omega), if_pos hslash]
      exact .more (.wantU lead)
    · rw [if_neg hslash]
      exact .malformed _
  | wantU lead =>
    dsimp only
    by_cases hu : byte.toNat = 0x75
    · rw [if_pos hu, if_pos hu]
      exact .more (.hex [] (some lead))
    · rw [if_neg hu]
      exact .malformed _

/-- A number that is kept goes the way of one that is passed over, unless it is too large. -/
theorem Numeral.powerDigit_keep (n : Numeral) (digit : Nat) :
    n.powerDigit true digit = .malformed true ∨
      n.powerDigit true digit = n.powerDigit false digit := by
  unfold powerDigit
  by_cases hlarge : (n.significand != 0 && !n.powerNegative) = true
  · simp only [Bool.true_and, hlarge, if_true]
    split
    · exact .inr rfl
    split
    · exact .inr rfl
    · exact .inl rfl
  · refine .inr ?_
    simp only [Bool.true_and, hlarge, Bool.false_and]

theorem Numeral.step_keep (n : Numeral) (b : Nat) :
    n.step true b = .malformed true ∨ n.step true b = n.step false b := by
  unfold step
  dsimp only
  split
  all_goals first | exact powerDigit_keep _ _ | exact .inr rfl

/-! ## In step -/

/-- Whether the innermost container is an object. -/
def InObject (stack : List (Frame ρ)) : Prop :=
  ∃ members name outer, stack = .object members name :: outer

theorem isSkipping_of_inObject {a : Machine ρ} (ho : InObject a.stack) : a.isSkipping = false := by
  obtain ⟨members, name, outer, hs⟩ := ho
  unfold Machine.isSkipping
  rw [hs]

/-- The phases of the two machines at the same place in a container. `w` is what the second one
wants of the next value, `skipping` tells whether it passes over the container, and `stack` is what
the first one has open. -/
inductive Abreast (w : Want ρ) (skipping : Bool) (stack : List (Frame Empty)) :
    Phase Empty → Phase ρ → Prop where
  | value (orEnd : Bool) : Abreast w skipping stack (.value (.build .any) orEnd) (.value w orEnd)
  | name (orEnd : Bool) (ho : InObject stack) :
      Abreast w skipping stack (.name orEnd) (.name orEnd)
  | colon : Abreast w skipping stack (.colon (.build .any)) (.colon w)
  | memberName (q : Quotation) (ho : InObject stack) (hs : skipping = false) :
      Abreast w skipping stack (.memberName q) (.memberName q)
  | skimmedName {p q : Quotation} (ho : InObject stack) (hs : skipping = true)
      (h : Quotation.Skims p.stage q.stage) :
      Abreast w skipping stack (.memberName p) (.memberName q)
  | quotation (q : Quotation) (hw : w ≠ .skip) :
      Abreast w skipping stack (.quotation q (.build .any)) (.quotation q w)
  | skimmed {p q : Quotation} (hw : w = .skip) (h : Quotation.Skims p.stage q.stage) :
      Abreast w skipping stack (.quotation p (.build .any)) (.quotation q .skip)
  | numeral (n : Numeral) : Abreast w skipping stack (.numeral n (.build .any)) (.numeral n w)
  | word (rest : List Nat) {v : Json} (hv : LeadsNowhere v) :
      Abreast w skipping stack (.word rest v (.build .any)) (.word rest v w)

end OData.Json
