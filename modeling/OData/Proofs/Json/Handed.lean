import OData.Proofs.Json.Machine

/-!
# Elements that have been handed out

An element that has been handed out is never taken back: whatever a machine does with a byte, the
elements it had handed out before are the oldest of those it has handed out afterwards
(`handed_step`). As a machine sees one byte after the other, what it has done with the bytes so far
does not depend on those to come (`run_append`). **So the elements handed out from the first bytes of
a stream are the first of those handed out from all of it** (`handed_of_prefix`), wherever the stream
is cut, and whether or not it holds a document at all.
-/

set_option autoImplicit false

namespace OData.Json

variable {ρ : Type}

namespace Machine

variable (m : Machine ρ)

/-! ## What is done with a byte -/

theorem handed_fault : m.fault.handed = m.handed := rfl

theorem handed_faultAt (b : Nat) : (m.faultAt b).handed = m.handed := rfl

/-- An element is handed out when it is delivered to the list that is descended to, and at no other
time. -/
theorem handed_deliver (item : Item) : m.handed <:+ (m.deliver item).handed := by
  unfold deliver
  dsimp only
  split
  case h_7 => exact List.suffix_cons _ _
  all_goals exact List.suffix_refl _

theorem handed_scalar? {want : Want ρ} {v : Json} {m' : Machine ρ}
    (h : m.scalar? want v = some m') : m.handed <:+ m'.handed := by
  unfold scalar? at h
  split at h
  · cases h
    exact m.handed_deliver _
  · obtain ⟨v', -, rfl⟩ := Option.map_eq_some_iff.mp h
    exact m.handed_deliver _
  · cases h

theorem handed_number? {want : Want ρ} {n : Numeral} {m' : Machine ρ}
    (h : m.number? want n = some m') : m.handed <:+ m'.handed := by
  unfold number? at h
  split at h
  · exact m.handed_scalar? h
  · obtain ⟨v, -, h⟩ := Option.bind_eq_some_iff.mp h
    exact m.handed_scalar? h

theorem handed_closeAt (schema : Schema ρ) (b : Nat) :
    m.handed <:+ (m.closeAt schema b).handed := by
  have hclose : ∀ st item, m.handed <:+ (m.close st item).handed :=
    fun st item => handed_deliver { m with stack := st } item
  unfold closeAt
  split
  case h_9 => exact List.suffix_refl _
  all_goals
    split
    · exact hclose _ _
    · exact List.suffix_refl _

theorem handed_openFrame (frame : Frame ρ) (phase : Phase ρ) (b : Nat) :
    (m.openFrame frame phase b).handed = m.handed := by
  unfold openFrame
  split <;> rfl

theorem handed_openList (schema : Schema ρ) (want : Want ρ) :
    (m.openList schema want).handed = m.handed := by
  unfold openList
  dsimp only
  split
  · rfl
  · exact m.handed_openFrame _ _ _
  · rfl
  · split
    · exact m.handed_openFrame _ _ _
    · exact m.handed_openFrame _ _ _
    · exact m.handed_openFrame _ _ _
    · rfl

theorem handed_openObject (want : Want ρ) : (m.openObject want).handed = m.handed := by
  unfold openObject
  dsimp only
  split
  · rfl
  · rfl
  · exact m.handed_openFrame _ _ _
  · split
    · exact m.handed_openFrame _ _ _
    · exact m.handed_openFrame _ _ _
    · exact m.handed_openFrame _ _ _
    · rfl

theorem handed_beginValue (schema : Schema ρ) (want : Want ρ) (b : Nat) :
    (m.beginValue schema want b).handed = m.handed := by
  unfold beginValue
  split
  · rfl
  split
  · exact m.handed_openList schema want
  split
  · exact m.handed_openObject want
  split
  · rfl
  split
  · rfl
  split
  · rfl
  split <;> rfl

theorem handed_named (schema : Schema ρ) (name : String) :
    (m.named schema name).handed = m.handed := by
  unfold named
  split
  · rfl
  · split
    · rfl
    · split <;> rfl
  · split <;> rfl
  · rfl

theorem handed_afterValue (schema : Schema ρ) (b : Nat) :
    m.handed <:+ (m.afterValue schema b).handed := by
  unfold afterValue
  split
  · exact List.suffix_refl _
  split
  · split <;> exact List.suffix_refl _
  · exact m.handed_closeAt schema b

theorem handed_getD {next : Option (Machine ρ)} (h : ∀ m', next = some m' → m.handed <:+ m'.handed)
    {otherwise : Machine ρ} (ho : otherwise.handed = m.handed) :
    m.handed <:+ (next.getD otherwise).handed := by
  cases next with
  | none => exact ho ▸ List.suffix_refl _
  | some m' => exact h m' rfl

/-- **One byte** leaves what has been handed out as it is. -/
theorem handed_step (schema : Schema ρ) (byte : UInt8) :
    m.handed <:+ (m.step schema byte).handed := by
  cases hm : m.phase with
  | value want orEnd =>
    rw [step_value schema byte hm]
    split
    · exact List.suffix_refl _
    split
    · exact m.handed_closeAt schema _
    · exact (m.handed_beginValue schema want _) ▸ List.suffix_refl _
  | afterValue =>
    rw [step_afterValue schema byte hm]
    exact m.handed_afterValue schema _
  | name orEnd =>
    rw [step_name schema byte hm]
    split
    · exact List.suffix_refl _
    split
    · exact List.suffix_refl _
    split
    · exact m.handed_closeAt schema _
    · exact List.suffix_refl _
  | colon want =>
    rw [step_colon schema byte hm]
    split
    · exact List.suffix_refl _
    · split <;> exact List.suffix_refl _
  | memberName q =>
    rw [step_memberName schema byte hm]
    split
    · exact List.suffix_refl _
    · exact List.suffix_refl _
    · split
      · exact List.suffix_refl _
      split
      · next name _ => exact (m.handed_named schema name) ▸ List.suffix_refl _
      · exact List.suffix_refl _
  | quotation q want =>
    rw [step_quotation schema byte hm]
    split
    · exact List.suffix_refl _
    · exact List.suffix_refl _
    · split
      · refine m.handed_getD ?_ m.handed_fault
        intro m' h
        obtain ⟨s, -, hs⟩ := Option.bind_eq_some_iff.mp h
        exact m.handed_scalar? hs
      · exact m.handed_deliver _
  | numeral n want =>
    rw [step_numeral schema byte hm]
    split
    · exact List.suffix_refl _
    · exact List.suffix_refl _
    · exact List.suffix_refl _
    · refine m.handed_getD ?_ (m.handed_faultAt _)
      intro m' h
      obtain ⟨m₁, hn, rfl⟩ := Option.map_eq_some_iff.mp h
      exact (m.handed_number? hn).trans (m₁.handed_afterValue schema _)
  | word rest v want =>
    rw [step_word schema byte hm]
    split
    · exact List.suffix_refl _
    · split
      · exact m.handed_getD (fun m' h => m.handed_scalar? h) m.handed_fault
      · exact List.suffix_refl _
    · split <;> exact List.suffix_refl _
  | faulted waiting =>
    rw [step_faulted schema byte hm]
    split <;> exact List.suffix_refl _

/-! ## What is done with a stream -/

theorem handed_run (schema : Schema ρ) (bytes : List UInt8) :
    m.handed <:+ (m.run schema bytes).1.handed := by
  induction bytes generalizing m with
  | nil => exact List.suffix_refl _
  | cons byte bytes ih =>
    unfold run
    split
    · exact List.suffix_refl _
    · exact (m.handed_step schema byte).trans (ih _)

/-- A number that the end of the stream completes may be handed out as well. -/
theorem handed_ended : m.handed <:+ m.ended.handed := by
  unfold ended
  split
  · split
    · exact m.handed_getD (fun m' h => m.handed_number? h) m.handed_fault
    · exact List.suffix_refl _
  · exact List.suffix_refl _

end Machine

/-- **The elements handed out from a stream that breaks off** are the first of those handed out from
any stream that begins with the same bytes. -/
theorem handed_of_prefix (schema : Schema ρ) (want : Want ρ) {first bytes : List UInt8}
    (h : first <+: bytes) (breaksOff : Bool) :
    (readFrom schema want first true).handed <+: (readFrom schema want bytes breaksOff).handed := by
  obtain ⟨more, rfl⟩ := h
  let m := ((Machine.start want).run schema first).1
  have hmore : m.handed <:+ ((Machine.start want).run schema (first ++ more)).1.handed := by
    rw [Machine.run_append]
    exact m.handed_run schema more
  unfold readFrom
  dsimp only
  refine List.IsPrefix.map normal (List.reverse_prefix.mpr ?_)
  cases breaksOff with
  | true => exact hmore
  | false => exact hmore.trans (Machine.handed_ended _)

end OData.Json
