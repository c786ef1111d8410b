import OData.Proofs.Json.Astray

/-!
# Descending beside building

A machine that descends through a document to a list, and one that builds the whole document, go on
side by side (`Along`) until one of them meets a fault. The one that descends does so only where the
other is lost for the descent (`Meets`): what it passes over is read less strictly, and it refuses
nothing but what is in its way. **One byte keeps this up** (`Along.step`), so of a document that can
be built **the descent comes to just what can be told from the whole tree** (`readFrom_descend`).
-/

set_option autoImplicit false

namespace OData.Json

variable {ρ : Type}

/-- Both machines have read a value: in some container, or the whole document. -/
inductive After (place : Place) (a : Machine Empty) (b : Machine ρ) : Prop where
  | between (nest : Nest place a.stack b.stack b.handed) (inside : a.stack ≠ [])
      (ha : a.phase = .afterValue) (hb : b.phase = .afterValue)
  | finished {v : Json} {n : Option Nat} {items : List Json} (ha : a.phase = .afterValue)
      (hb : b.phase = .afterValue) (hsa : a.stack = []) (hsb : b.stack = [])
      (hra : a.result = some (.value v)) (hrb : b.result = some (.count n))
      (hv : descent? place v = some (n, items)) (handed : b.handed = items.reverse)

/-- The first machine builds the document in which the second one descends to `place`, and both are
at the same place in it. -/
inductive Along (place : Place) (a : Machine Empty) (b : Machine ρ) : Prop where
  | reading (nest : Nest place a.stack b.stack b.handed)
      (phases : Abreast (wanted place a.stack b.stack) b.isSkipping a.stack a.phase b.phase)
  | after (h : After place a b)

/-- Both machines go on side by side, or the first has met a fault, or the second has before it handed
out anything, and the first is lost. -/
inductive Meets (place : Place) (a : Machine Empty) (b : Machine ρ) : Prop where
  | along (h : Along place a b)
  | first (h : a.Faulted)
  | second (hb : b.Faulted) (hh : b.handed = []) (ha : Lost place a)

section

variable {place : Place} {a : Machine Empty} {b : Machine ρ}

theorem After.phases (h : After place a b) : a.phase = .afterValue ∧ b.phase = .afterValue := by
  cases h with
  | between _ _ ha hb => exact ⟨ha, hb⟩
  | finished ha hb => exact ⟨ha, hb⟩

/-! ### Values that are complete -/

/-- **A value is complete**, and goes into the innermost container or is the document. -/
theorem after_deliver {handed : List Json} (hn : Nest place a.stack b.stack handed) {w : Want ρ}
    (hw : wanted place a.stack b.stack = w) {v : Json} {item : Item} {items : List Json}
    (hs : Suits v w item items) (hh : b.handed = items.reverse ++ handed) :
    After place (a.deliver (.value v)) (b.deliver item) := by
  subst hw
  obtain ⟨pa, sa, ha, ra⟩ := a
  obtain ⟨pb, sb, hb, rb⟩ := b
  dsimp only at hn hs hh
  subst hh
  cases hn with
  | root =>
    change Suits v (.descend place .any) item items at hs
    cases hs with
    | descend h => exact .finished rfl rfl rfl rfl rfl rfl h (List.append_nil items.reverse)
  | @push sa sb _ _ before _ outer inner =>
    generalize hw : wanted place sa sb = w at inner
    cases inner with
    | list xs =>
      change Suits v (.build .any) item items at hs
      cases hs
      exact .between (outer.pushed hw (.list _ _)) (List.cons_ne_nil _ _) rfl rfl
    | skippedList xs =>
      change Suits v .skip item items at hs
      cases hs
      exact .between (outer.pushed hw (.skippedList _ _)) (List.cons_ne_nil _ _) rfl rfl
    | elements xs =>
      change Suits v (.build .any) item items at hs
      cases hs
      exact .between (outer.pushed hw (.elements (v :: xs) _)) (List.cons_ne_nil _ _) rfl rfl
    | object members name =>
      change Suits v (.build .any) item items at hs
      cases hs
      exact .between (outer.pushed hw (.object _ _ _)) (List.cons_ne_nil _ _) rfl rfl
    | skippedObject members name =>
      change Suits v .skip item items at hs
      cases hs
      exact .between (outer.pushed hw (.skippedObject _ _ _)) (List.cons_ne_nil _ _) rfl rfl
    | @level names rest members name found before' _ h =>
      change Suits v (if found = none ∧ name ∈ names then .descend rest .any else .skip) item items
        at hs
      have hnext := foldlM_reverse_cons (descendMember names (descent? rest)) (name, v) h
      split at hs
      · next hleads =>
        cases hs with
        | @descend _ n _ hv =>
          have hhanded : items.reverse ++ (before'.reverse ++ before) =
              (before' ++ items).reverse ++ before := by simp
          refine .between ?_ (List.cons_ne_nil _ _) rfl rfl
          show Nest place _ (.level names rest .any n :: sb) _
          rw [hhanded]
          refine outer.pushed hw (.level _ _ ?_)
          rw [hnext, descendMember, if_pos hleads, hv]
          rfl
      · next hleads =>
        cases hs
        refine .between (outer.pushed hw (.level _ _ ?_)) (List.cons_ne_nil _ _) rfl rfl
        rw [hnext, descendMember, if_neg hleads]

theorem meets_ite {p : Prop} [Decidable p] {a' : Machine Empty} {b' : Machine ρ} {c : Nat}
    (h : p → Meets place a' b') :
    Meets place (if p then a' else a.faultAt c) (if p then b' else b.faultAt c) := by
  split
  · next hp => exact h hp
  · exact .first (a.faulted_faultAt c)

/-- The two machines leave a container, or the bracket does not fit. -/
theorem meets_closeAt (schema : Schema ρ) (hn : Nest place a.stack b.stack b.handed) (c : Nat) :
    Meets place (a.closeAt noRecords c) (b.closeAt schema c) := by
  obtain ⟨pa, sa, ha, ra⟩ := a
  obtain ⟨pb, sb, hb, rb⟩ := b
  dsimp only at hn
  cases hn with
  | root => exact .first (Machine.faulted_faultAt _ _)
  | @push sa sb _ _ before _ outer inner =>
    -- What is closed suits what was wanted of it.
    have hclose : ∀ {v : Json} {item : Item} {items : List Json},
        Suits v (wanted place sa sb) item items → hb = items.reverse ++ before →
        Meets place ((⟨pa, sa, ha, ra⟩ : Machine Empty).deliver (.value v))
          ((⟨pb, sb, hb, rb⟩ : Machine ρ).deliver item) := by
      intro v item items hs hh
      exact .along (.after (after_deliver outer rfl hs hh))
    generalize wanted place sa sb = w at inner hclose
    cases inner with
    | list xs => exact meets_ite fun _ => hclose .build rfl
    | skippedList xs => exact meets_ite fun _ => hclose .skip rfl
    | elements xs =>
      have hlist : descent? [] (.list xs.reverse) = some (some xs.length, xs.reverse) := by
        rw [descent?, List.length_reverse]
      exact meets_ite fun _ => hclose (.descend hlist) (by rw [List.reverse_reverse])
    | object members name => exact meets_ite fun _ => hclose .build rfl
    | skippedObject members name => exact meets_ite fun _ => hclose .skip rfl
    | level name _ h => exact meets_ite fun _ => hclose (.descend h) rfl

/-! ### Values that begin -/

section

variable {fa : Frame Empty} {fb : Frame ρ} {pa : Phase Empty} {pb : Phase ρ}
  {w : Want ρ} (hn : Nest place a.stack b.stack b.handed) (hw : wanted place a.stack b.stack = w)
  (ht : Twin w fa fb b.handed b.handed)
  (hp : Abreast (nextWant fa fb) (Machine.isSkipping { b with stack := fb :: b.stack })
    (fa :: a.stack) pa pb)

include hn hw ht hp

theorem meets_openFrame (c : Nat) :
    Meets place (a.openFrame fa pa c) (b.openFrame fb pb c) := by
  subst hw
  unfold Machine.openFrame
  split
  · next ha =>
    have hb : b.depth < Machine.depthLimit := Nat.lt_of_le_of_lt hn.depth_le ha
    rw [if_pos hb]
    exact .along (.reading (.push hn ht) hp)
  · exact .first (a.faulted_faultAt c)

theorem meets_openSkipped (c : Nat) :
    Meets place (a.openFrame fa pa c) { b with stack := fb :: b.stack, phase := pb } := by
  subst hw
  unfold Machine.openFrame
  split
  · exact .along (.reading (.push hn ht) hp)
  · exact .first (a.faulted_faultAt c)

end

theorem meets_openList (schema : Schema ρ) (hn : Nest place a.stack b.stack b.handed) :
    Meets place (a.openList noRecords (.build .any))
      (b.openList schema (wanted place a.stack b.stack)) := by
  have hplain := hn.plain
  generalize hw : wanted place a.stack b.stack = w at hplain
  cases hplain with
  | skip => exact meets_openSkipped hn hw (.skippedList [] _) (.value true) 0x5B
  | build => exact meets_openFrame hn hw (.list [] _) (.value true) 0x5B
  | descend place' =>
    cases place' with
    | nil => exact meets_openFrame hn hw (.elements [] _) (.value true) 0x5B
    | cons names rest =>
      exact .second (b.faulted_faultAt _) (hn.handed_eq_nil hw)
        (lost_openList (.here (hn.way hw) (.list [])))

theorem meets_openObject (hn : Nest place a.stack b.stack b.handed) :
    Meets place (a.openObject (.build .any)) (b.openObject (wanted place a.stack b.stack)) := by
  have hplain := hn.plain
  generalize hw : wanted place a.stack b.stack = w at hplain
  cases hplain with
  | skip => exact meets_openSkipped hn hw (.skippedObject [] "" _) (.name true ⟨_, _, _, rfl⟩) 0x7B
  | build => exact meets_openFrame hn hw (.object [] "" _) (.name true ⟨_, _, _, rfl⟩) 0x7B
  | descend place' =>
    cases place' with
    | nil =>
      exact .second (b.faulted_faultAt _) (hn.handed_eq_nil hw)
        (lost_openObject (.here (hn.way hw) (.object [] "")))
    | cons names rest =>
      have hlevel : Twin (.descend (names :: rest) .any) (.object [] "")
          (.level names rest .any none : Frame ρ) b.handed ([].reverse ++ b.handed) :=
        .level "" b.handed rfl
      exact meets_openFrame hn hw hlevel (.name true ⟨_, _, _, rfl⟩) 0x7B

theorem meets_beginValue (schema : Schema ρ) (hn : Nest place a.stack b.stack b.handed)
    (c : Nat) :
    Meets place (a.beginValue noRecords (.build .any) c)
      (b.beginValue schema (wanted place a.stack b.stack) c) := by
  unfold Machine.beginValue
  by_cases hquote : c = 0x22
  · rw [if_pos hquote, if_pos hquote]
    refine .along (.reading hn ?_)
    by_cases hw : wanted place a.stack b.stack = .skip
    · rw [hw]
      exact .skimmed rfl .plain
    · exact .quotation {} hw
  rw [if_neg hquote, if_neg hquote]
  split
  · exact meets_openList schema hn
  split
  · exact meets_openObject hn
  split
  · exact .along (.reading hn (.word _ leadsNowhere_null))
  split
  · exact .along (.reading hn (.word _ (leadsNowhere_boolean true)))
  split
  · exact .along (.reading hn (.word _ (leadsNowhere_boolean false)))
  split
  · exact .along (.reading hn (.numeral _))
  · exact .first (a.faulted_faultAt c)

/-! ### Scalars -/

/-- A scalar that is complete is refused by a machine that is still on its way down, and the other
one is lost. -/
theorem scalar?_wanted (hn : Nest place a.stack b.stack b.handed) {v : Json}
    (hv : LeadsNowhere v) :
    (b.scalar? (wanted place a.stack b.stack) v = none ∧ b.handed = [] ∧
      Lost place (a.deliver (.value v))) ∨
      ∃ b', b.scalar? (wanted place a.stack b.stack) v = some b' ∧
        After place (a.deliver (.value v)) b' := by
  have hplain := hn.plain
  generalize hw : wanted place a.stack b.stack = w at hplain
  cases hplain with
  | skip => exact .inr ⟨_, rfl, after_deliver hn hw .skip rfl⟩
  | build => exact .inr ⟨_, rfl, after_deliver hn hw .build rfl⟩
  | descend left =>
    exact .inl ⟨rfl, hn.handed_eq_nil hw, (hn.way hw).lost_deliver (hv left)⟩

theorem meets_scalar (hn : Nest place a.stack b.stack b.handed) {v : Json} (hv : LeadsNowhere v) :
    Meets place (a.deliver (.value v))
      ((b.scalar? (wanted place a.stack b.stack) v).getD b.fault) := by
  rcases scalar?_wanted hn hv with ⟨h, hnone, hlost⟩ | ⟨b', h, hafter⟩
  · rw [h]
    exact .second b.faulted_fault hnone hlost
  · rw [h]
    exact .along (.after hafter)

/-! ### Members and separators -/

/-- What is wanted of a member of an object on the way. -/
theorem named_level (schema : Schema ρ) {names : List String} {rest : Place} {found : Option Nat}
    {outer : List (Frame ρ)} (hb : b.stack = .level names rest .any found :: outer) (name : String)
    {members : List (String × Json)} {w : Want ρ}
    (hw : nextWant (.object members name) (.level names rest .any found) = w) :
    b.named schema name = { b with phase := .colon w } := by
  obtain ⟨pb, sb, handed, rb⟩ := b
  subst hb hw
  unfold Machine.named nextWant
  cases found with
  | none =>
    by_cases hname : name ∈ names
    · simp [hname]
    · simp [hname]
  | some n => simp

/-- Both machines have read the name of a member. -/
theorem meets_named (schema : Schema ρ) (hn : Nest place a.stack b.stack b.handed)
    (ho : InObject a.stack) (name : String) :
    Meets place (a.named noRecords name)
      (if b.isSkipping then { b with phase := .colon .skip } else b.named schema name) := by
  obtain ⟨pa, sa, ha, ra⟩ := a
  obtain ⟨pb, sb, hb, rb⟩ := b
  obtain ⟨members, earlier, sa, rfl⟩ := ho
  dsimp only at hn
  cases hn with
  | @push _ sb _ fb before _ outer inner =>
    generalize hw : wanted place sa sb = w at inner
    cases inner with
    | object => exact .along (.reading (outer.pushed hw (.object members name hb)) .colon)
    | skippedObject => exact .along (.reading (outer.pushed hw (.skippedObject members name hb)) .colon)
    | level _ _ h =>
      rw [if_neg (by rintro ⟨⟩),
        named_level schema rfl name (rfl : nextWant (.object members name) _ = _)]
      exact .along (.reading (outer.pushed hw (.level name _ h)) .colon)

/-- After a comma there is another value in a list, and another name in an object. -/
theorem meets_comma (schema : Schema ρ) (hn : Nest place a.stack b.stack b.handed)
    (inside : a.stack ≠ []) :
    Meets place (a.afterValue noRecords 0x2C) (b.afterValue schema 0x2C) := by
  obtain ⟨pa, sa, ha, ra⟩ := a
  obtain ⟨pb, sb, hb, rb⟩ := b
  have hall := hn
  cases hn with
  | root => exact absurd rfl inside
  | @push sa sb _ _ _ _ outer inner =>
    generalize wanted place sa sb = w at inner
    cases inner with
    | list => exact .along (.reading hall (.value false))
    | skippedList => exact .along (.reading hall (.value false))
    | elements => exact .along (.reading hall (.value false))
    | object => exact .along (.reading hall (.name false ⟨_, _, _, rfl⟩))
    | skippedObject => exact .along (.reading hall (.name false ⟨_, _, _, rfl⟩))
    | level => exact .along (.reading hall (.name false ⟨_, _, _, rfl⟩))

/-- A value has been read. -/
theorem meets_afterValue (schema : Schema ρ) (h : After place a b) (c : Nat) :
    Meets place (a.afterValue noRecords c) (b.afterValue schema c) := by
  by_cases hgap : isGap c = true
  · unfold Machine.afterValue
    rw [if_pos hgap, if_pos hgap]
    exact .along (.after h)
  cases h with
  | finished _ _ hsa =>
    -- Nothing may follow the document.
    refine .first ?_
    unfold Machine.afterValue Machine.closeAt
    rw [if_neg hgap, hsa]
    split
    · exact a.faulted_faultAt c
    · exact a.faulted_faultAt c
  | between hn inside =>
    by_cases hcomma : c = 0x2C
    · rw [hcomma]
      exact meets_comma schema hn inside
    · unfold Machine.afterValue
      rw [if_neg hgap, if_neg hgap, if_neg hcomma, if_neg hcomma]
      exact meets_closeAt schema hn c

/-! ### One byte -/

/-- The name of a member, which the second machine reads as well. -/
theorem meets_memberName (schema : Schema ρ) (hn : Nest place a.stack b.stack b.handed)
    (ho : InObject a.stack) (hs : b.isSkipping = false) {q : Quotation}
    (ha : a.phase = .memberName q) (hb : b.phase = .memberName q) (byte : UInt8) :
    Meets place (a.step noRecords byte) (b.step schema byte) := by
  rw [Machine.step_memberName noRecords byte ha, Machine.step_memberName schema byte hb,
    isSkipping_of_inObject ho, hs]
  cases q.step (!false) byte with
  | more q => exact .along (.reading hn (.memberName q ho hs))
  | malformed => exact .first a.faulted_fault
  | done bytes =>
    dsimp only
    rw [if_neg Bool.false_ne_true, if_neg Bool.false_ne_true]
    cases Quotation.text? bytes with
    | none => exact .first a.faulted_fault
    | some name =>
      have hnamed := meets_named schema hn ho name
      rwa [hs, if_neg Bool.false_ne_true] at hnamed

/-- The name of a member of an object that the second machine passes over. -/
theorem meets_skimmedName (schema : Schema ρ) (hn : Nest place a.stack b.stack b.handed)
    (ho : InObject a.stack) (hs : b.isSkipping = true) {p q : Quotation}
    (h : Quotation.Skims p.stage q.stage) (ha : a.phase = .memberName p)
    (hb : b.phase = .memberName q) (byte : UInt8) :
    Meets place (a.step noRecords byte) (b.step schema byte) := by
  have hkeeps := h.step byte
  rw [Machine.step_memberName noRecords byte ha, Machine.step_memberName schema byte hb,
    isSkipping_of_inObject ho, hs, Bool.not_false, Bool.not_true]
  generalize p.step true byte = pn, q.step false byte = qn at hkeeps
  cases hkeeps with
  | more h => exact .along (.reading hn (.skimmedName ho hs h))
  | malformed => exact .first a.faulted_fault
  | done bytes bytes' =>
    dsimp only
    rw [if_neg Bool.false_ne_true, if_pos rfl]
    cases Quotation.text? bytes with
    | none => exact .first a.faulted_fault
    | some name =>
      have hnamed := meets_named schema hn ho name
      rwa [hs, if_pos rfl] at hnamed

/-- **A string** comes to its end in both machines, if it is sound. -/
theorem meets_quotation (schema : Schema ρ) (hn : Nest place a.stack b.stack b.handed)
    {q : Quotation} (ha : a.phase = .quotation q (.build .any))
    (hw : wanted place a.stack b.stack ≠ .skip)
    (hb : b.phase = .quotation q (wanted place a.stack b.stack)) (byte : UInt8) :
    Meets place (a.step noRecords byte) (b.step schema byte) := by
  have hkept : (Want.build .any : Want Empty).isKept = true := rfl
  rw [Machine.step_quotation noRecords byte ha, Machine.step_quotation schema byte hb, hkept,
    Want.isKept_of_ne hw]
  cases q.step true byte with
  | more q => exact .along (.reading hn (.quotation q hw))
  | malformed => exact .first a.faulted_fault
  | done bytes =>
    dsimp only
    rw [if_pos rfl, if_pos rfl]
    cases Quotation.text? bytes with
    | none => exact .first a.faulted_fault
    | some s => exact meets_scalar hn (leadsNowhere_text s)

theorem meets_skimmed (schema : Schema ρ) (hn : Nest place a.stack b.stack b.handed)
    {p q : Quotation} (h : Quotation.Skims p.stage q.stage)
    (ha : a.phase = .quotation p (.build .any)) (hw : wanted place a.stack b.stack = .skip)
    (hb : b.phase = .quotation q .skip) (byte : UInt8) :
    Meets place (a.step noRecords byte) (b.step schema byte) := by
  have hkept : (Want.build .any : Want Empty).isKept = true := rfl
  have hskipped : (Want.skip : Want ρ).isKept = false := rfl
  have hkeeps := h.step byte
  rw [Machine.step_quotation noRecords byte ha, Machine.step_quotation schema byte hb, hkept, hskipped]
  generalize p.step true byte = pn, q.step false byte = qn at hkeeps
  cases hkeeps with
  | more h => exact .along (.reading hn (.skimmed hw h))
  | malformed => exact .first a.faulted_fault
  | done bytes bytes' =>
    dsimp only
    rw [if_pos rfl, if_neg Bool.false_ne_true]
    cases Quotation.text? bytes with
    | none => exact .first a.faulted_fault
    | some s => exact .along (.after (after_deliver hn hw .skip rfl))

/-- The value of a number makes no difference where it is passed over. -/
theorem number?_wanted (hn : Nest place a.stack b.stack b.handed) {n : Numeral}
    {a' : Machine Empty} (ha : a.number? (.build .any) n = some a') :
    (b.number? (wanted place a.stack b.stack) n = none ∧ b.handed = [] ∧ Lost place a' ∧
      a'.phase = .afterValue) ∨
      ∃ b', b.number? (wanted place a.stack b.stack) n = some b' ∧ After place a' b' := by
  obtain ⟨v, hv, ha⟩ := Option.bind_eq_some_iff.mp ha
  cases ha
  by_cases hw : wanted place a.stack b.stack = .skip
  · rw [hw]
    exact .inr ⟨_, rfl, after_deliver hn hw .skip rfl⟩
  · rw [Machine.number?_of_ne hw hv]
    rcases scalar?_wanted hn (leadsNowhere_of_value? hv) with ⟨h, hnone, hlost⟩ | h
    · exact .inl ⟨h, hnone, hlost, a.phase_deliver _⟩
    · exact .inr h

theorem meets_numeral (schema : Schema ρ) (hn : Nest place a.stack b.stack b.handed) {n : Numeral}
    (ha : a.phase = .numeral n (.build .any))
    (hb : b.phase = .numeral n (wanted place a.stack b.stack)) (byte : UInt8) :
    Meets place (a.step noRecords byte) (b.step schema byte) := by
  have hkept : (Want.build .any : Want Empty).isKept = true := rfl
  rw [Machine.step_numeral noRecords byte ha, Machine.step_numeral schema byte hb, hkept]
  rcases n.step_keep byte.toNat with hlarge | hsame
  · rw [hlarge]
    exact .first a.faulted_fault
  have hstep :
      n.step (wanted place a.stack b.stack).isKept byte.toNat = n.step true byte.toNat := by
    cases (wanted place a.stack b.stack).isKept with
    | true => rfl
    | false => exact hsame.symm
  rw [hstep]
  cases n.step true byte.toNat with
  | more n => exact .along (.reading hn (.numeral n))
  | malformed taken =>
    cases taken with
    | true => exact .first a.faulted_fault
    | false => exact .first (a.faulted_faultAt _)
  | done =>
    dsimp only
    cases hnumber : a.number? (.build .any) n with
    | none => exact .first (a.faulted_faultAt _)
    | some a' =>
      rcases number?_wanted hn hnumber with ⟨h, hnone, hlost, hphase⟩ | ⟨b', h, hafter⟩
      · rw [h]
        exact .second (b.faulted_faultAt _) hnone (hlost.afterValue hphase _)
      · rw [h]
        exact meets_afterValue schema hafter _

theorem meets_word (schema : Schema ρ) (hn : Nest place a.stack b.stack b.handed)
    {rest : List Nat} {v : Json} (hv : LeadsNowhere v)
    (ha : a.phase = .word rest v (.build .any))
    (hb : b.phase = .word rest v (wanted place a.stack b.stack)) (byte : UInt8) :
    Meets place (a.step noRecords byte) (b.step schema byte) := by
  rw [Machine.step_word noRecords byte ha, Machine.step_word schema byte hb]
  cases rest with
  | nil => exact .first a.faulted_fault
  | cons c rest =>
    cases rest with
    | nil =>
      dsimp only
      split
      · exact meets_scalar hn hv
      · exact .first a.faulted_fault
    | cons d rest =>
      dsimp only
      split
      · exact .along (.reading hn (.word _ hv))
      · exact .first a.faulted_fault

/-- **One byte** is read by both machines alike, or one of them meets a fault. -/
theorem Along.step (schema : Schema ρ) (h : Along place a b) (byte : UInt8) :
    Meets place (a.step noRecords byte) (b.step schema byte) := by
  cases h with
  | after h =>
    rw [Machine.step_afterValue noRecords byte h.phases.1,
      Machine.step_afterValue schema byte h.phases.2]
    exact meets_afterValue schema h _
  | reading hn phases =>
    generalize ha : a.phase = pa, hb : b.phase = pb at phases
    cases phases with
    | value orEnd =>
      rw [Machine.step_value noRecords byte ha, Machine.step_value schema byte hb]
      split
      · exact .along (.reading hn (by rw [ha, hb]; exact .value orEnd))
      split
      · exact meets_closeAt schema hn _
      · exact meets_beginValue schema hn _
    | name orEnd ho =>
      rw [Machine.step_name noRecords byte ha, Machine.step_name schema byte hb]
      split
      · exact .along (.reading hn (by rw [ha, hb]; exact .name orEnd ho))
      split
      · refine .along (.reading hn ?_)
        cases hs : b.isSkipping with
        | true => exact .skimmedName ho hs .plain
        | false => exact .memberName {} ho hs
      split
      · exact meets_closeAt schema hn _
      · exact .first (a.faulted_faultAt _)
    | colon =>
      rw [Machine.step_colon noRecords byte ha, Machine.step_colon schema byte hb]
      split
      · exact .along (.reading hn (by rw [ha, hb]; exact .colon))
      split
      · exact .along (.reading hn (.value false))
      · exact .first (a.faulted_faultAt _)
    | memberName q ho hs => exact meets_memberName schema hn ho hs ha hb byte
    | skimmedName ho hs h => exact meets_skimmedName schema hn ho hs h ha hb byte
    | quotation q hw => exact meets_quotation schema hn ha hw hb byte
    | skimmed hw h => exact meets_skimmed schema hn h ha hw hb byte
    | numeral n => exact meets_numeral schema hn ha hb byte
    | word rest hv => exact meets_word schema hn hv ha hb byte

/-! ### Whole documents -/

theorem Along.not_stopped (h : Along place a b) : a.isStopped = false ∧ b.isStopped = false := by
  unfold Machine.isStopped
  cases h with
  | after h => rw [h.phases.1, h.phases.2]; exact ⟨rfl, rfl⟩
  | reading _ phases =>
    generalize a.phase = pa, b.phase = pb at phases
    cases phases <;> exact ⟨rfl, rfl⟩

/-- **Any bytes** are read by both machines alike, as long as neither meets a fault. -/
theorem Along.run (schema : Schema ρ) (h : Along place a b) (bytes : List UInt8) :
    Meets place (a.run noRecords bytes).1 (b.run schema bytes).1 := by
  induction bytes generalizing a b with
  | nil => exact .along h
  | cons byte bytes ih =>
    obtain ⟨hsa, hsb⟩ := h.not_stopped
    unfold Machine.run
    rw [hsa, hsb, if_neg Bool.false_ne_true, if_neg Bool.false_ne_true]
    cases h.step schema byte with
    | along h => exact ih h
    | first h => exact .first (h.run noRecords bytes)
    | second hb hh ha =>
      exact .second (hb.run schema bytes) ((hb.handed_run schema bytes).trans hh) (ha.run bytes)

/-- The end of the bytes ends a number in both machines. -/
theorem Along.ended (h : Along place a b) : Meets place a.ended b.ended := by
  cases h with
  | after h =>
    unfold Machine.ended
    rw [h.phases.1, h.phases.2]
    exact .along (.after h)
  | reading hn phases =>
    have hsame : Meets place a b := .along (.reading hn phases)
    generalize ha : a.phase = pa, hb : b.phase = pb at phases
    unfold Machine.ended
    rw [ha, hb]
    cases phases with
    | numeral n =>
      dsimp only
      split
      · cases hnumber : a.number? (.build .any) n with
        | none => exact .first a.faulted_fault
        | some a' =>
          rcases number?_wanted hn hnumber with ⟨h, hnone, hlost, -⟩ | ⟨b', h, hafter⟩
          · rw [h]
            exact .second b.faulted_fault hnone hlost
          · rw [h]
            exact .along (.after hafter)
      · exact hsame
    | _ => exact hsame

/-- Of a document that the first machine completes, the second one gives what the descent comes to,
or has met a fault where the descent fails. -/
theorem Meets.complete? (h : Meets place a b) {v : Json} (ha : a.complete? = some (.value v)) :
    (∃ n items, descent? place v = some (n, items) ∧ b.complete? = some (.count n) ∧
      b.handed = items.reverse) ∨
    descent? place v = none ∧ b.complete? = none ∧ b.handed = [] := by
  cases h with
  | first h =>
    rw [h.complete?] at ha
    cases ha
  | second hb hh hlost => exact .inr ⟨hlost.complete? ha, hb.complete?, hh⟩
  | along h =>
    unfold Machine.complete? at ha ⊢
    cases h with
    | reading _ phases =>
      generalize a.phase = pa, b.phase = pb at phases ha
      cases phases <;> cases ha
    | after h =>
      cases h with
      | between _ inside hpa =>
        rw [hpa] at ha
        dsimp only at ha
        rw [if_neg (by simpa using inside)] at ha
        cases ha
      | @finished v' n items hpa hpb hsa hsb hra hrb hv handed =>
        rw [hpa, hsa, hra] at ha
        rw [hpb, hsb, hrb]
        cases ha
        exact .inl ⟨n, items, hv, rfl, handed⟩

end

/-- **Of a document that can be built, a descent comes to what can be told from the whole tree**: it
hands out the elements that are found there, or it hands out nothing and is not completed. -/
theorem readFrom_descend (schema : Schema ρ) (place : Place) {bytes : List UInt8} {root : Json}
    (hroot : parseRaw? bytes = some root) :
    (∃ n items, descent? place root = some (n, items) ∧
      (readFrom schema (.descend place .any) bytes false).outcome = some (.count n) ∧
      (readFrom schema (.descend place .any) bytes false).handed = items.map normal) ∨
    descent? place root = none ∧
      (readFrom schema (.descend place .any) bytes false).outcome = none ∧
      (readFrom schema (.descend place .any) bytes false).handed = [] := by
  have hstart : Along place (Machine.start (.build .any) : Machine Empty)
      (Machine.start (.descend place .any) : Machine ρ) := .reading .root (.value false)
  have hmeets : Meets place
      ((Machine.start (.build .any)).run noRecords bytes).1.ended
      ((Machine.start (.descend place .any)).run schema bytes).1.ended := by
    cases hstart.run schema bytes with
    | along h => exact h.ended
    | first h => exact .first h.ended
    | second hb hh ha => exact .second hb.ended (hb.handed_ended.trans hh) ha.ended
  have hvalue : ((Machine.start (.build .any)).run noRecords bytes).1.ended.complete? =
      some (.value root) := by
    unfold parseRaw? at hroot
    split at hroot
    · next v hv =>
      cases hroot
      exact hv
    · cases hroot
  rcases hmeets.complete? hvalue with ⟨n, items, hitems, hcount, hhanded⟩ |
    ⟨hnone, hcount, hhanded⟩
  · refine .inl ⟨n, items, hitems, hcount, ?_⟩
    unfold readFrom
    dsimp only
    rw [if_neg Bool.false_ne_true, hhanded, List.reverse_reverse]
  · refine .inr ⟨hnone, hcount, ?_⟩
    unfold readFrom
    dsimp only
    rw [if_neg Bool.false_ne_true, hhanded]
    rfl

/-- A descent that is completed has found what can be told from the whole document. -/
theorem descent?_of_readFrom (schema : Schema ρ) {place : Place} {bytes : List UInt8} {root : Json}
    (hroot : parseRaw? bytes = some root) {n : Option Nat}
    (hcount : (readFrom schema (.descend place .any) bytes false).outcome = some (.count n)) :
    ∃ items, descent? place root = some (n, items) ∧
      (readFrom schema (.descend place .any) bytes false).handed = items.map normal := by
  rcases readFrom_descend schema place hroot with ⟨m, items, hitems, hm, hhanded⟩ | ⟨-, hnone, -⟩
  · rw [hm] at hcount
    cases hcount
    exact ⟨items, hitems, hhanded⟩
  · rw [hnone] at hcount
    cases hcount

end OData.Json
