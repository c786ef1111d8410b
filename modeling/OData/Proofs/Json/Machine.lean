import OData.Json.Reader

/-!
# The reading machine, phase by phase

What one byte does to a machine, in one equation for each phase, and what becomes of a machine that
has met a fault: it stays faulted (`Faulted.run`) and completes nothing (`Faulted.complete?`). Bytes
are read one after the other, so **what has been read so far does not depend on what comes later**
(`run_append`).
-/

set_option autoImplicit false

namespace OData.Json

variable {ρ : Type}

/-! ## Strings and numbers -/

/-- Whether strings and numbers have to be read for what they are. -/
def Want.isKept : Want ρ → Bool
  | .skip => false
  | .build _ | .descend _ _ => true

/-- Only what is skipped is not read for what it is. -/
theorem Want.isKept_of_ne {w : Want ρ} (h : w ≠ .skip) : w.isKept = true := by
  cases w with
  | skip => exact absurd rfl h
  | build => rfl
  | descend => rfl

/-- Where it is not skipped, a number that can be read is taken as any other scalar. -/
theorem Machine.number?_of_ne {m : Machine ρ} {w : Want ρ} (hw : w ≠ .skip) {n : Numeral}
    {v : Json} (hv : n.value? = some v) : m.number? w n = m.scalar? w v := by
  unfold number?
  cases w with
  | skip => exact absurd rfl hw
  | build => rw [hv]; rfl
  | descend => rw [hv]; rfl

/-- Whatever has been completed, a machine goes on behind it in the same way. -/
theorem Machine.phase_deliver (m : Machine ρ) (item : Item) :
    (m.deliver item).phase = .afterValue := by
  unfold deliver
  dsimp only
  split <;> rfl

/-! ## One byte in each phase -/

namespace Machine

variable (schema : Schema ρ) {m : Machine ρ} {q : Quotation} {n : Numeral} {w : Want ρ}
  (byte : UInt8)

/-- A value is begun by the first byte that is no gap. In a list it may be the end of the list
instead, if no item is owed. -/
theorem step_value {orEnd : Bool} (hm : m.phase = .value w orEnd) :
    m.step schema byte =
      if isGap byte.toNat then m
      else if orEnd && byte.toNat == 0x5D then m.closeAt schema byte.toNat
      else m.beginValue schema w byte.toNat := by
  unfold step
  rw [hm]

theorem step_afterValue (hm : m.phase = .afterValue) :
    m.step schema byte = m.afterValue schema byte.toNat := by
  unfold step
  rw [hm]

/-- A name begins with a quotation mark. An object may end instead, if no member is owed. -/
theorem step_name {orEnd : Bool} (hm : m.phase = .name orEnd) :
    m.step schema byte =
      if isGap byte.toNat then m
      else if byte.toNat = 0x22 then { m with phase := .memberName {} }
      else if orEnd && byte.toNat == 0x7D then m.closeAt schema byte.toNat
      else m.faultAt byte.toNat := by
  unfold step
  rw [hm]

theorem step_colon (hm : m.phase = .colon w) :
    m.step schema byte =
      if isGap byte.toNat then m
      else if byte.toNat = 0x3A then { m with phase := .value w false }
      else m.faultAt byte.toNat := by
  unfold step
  rw [hm]

/-- A name goes on until its closing quotation mark. It matters only where members are not skipped.
-/
theorem step_memberName (hm : m.phase = .memberName q) :
    m.step schema byte =
      match q.step (!m.isSkipping) byte with
      | .more q => { m with phase := .memberName q }
      | .malformed => m.fault
      | .done bytes =>
        if m.isSkipping then { m with phase := .colon .skip }
        else
          match Quotation.text? bytes with
          | some name => m.named schema name
          | none => m.fault := by
  unfold step
  rewrite [hm]
  rfl

/-- A string goes on until its closing quotation mark. It has to be well-formed text only if it is
kept. -/
theorem step_quotation (hm : m.phase = .quotation q w) :
    m.step schema byte =
      match q.step w.isKept byte with
      | .more q => { m with phase := .quotation q w }
      | .malformed => m.fault
      | .done bytes =>
        if w.isKept then
          (((Quotation.text? bytes).bind fun s => m.scalar? w (.text s))).getD m.fault
        else m.deliver .skipped := by
  unfold step
  rw [hm]
  cases w <;> rfl

/-- A number has no end of its own: the byte behind it is read once more, as what follows a value.
-/
theorem step_numeral (hm : m.phase = .numeral n w) :
    m.step schema byte =
      match n.step w.isKept byte.toNat with
      | .more n => { m with phase := .numeral n w }
      | .malformed true => m.fault
      | .malformed false => m.faultAt byte.toNat
      | .done =>
        ((m.number? w n).map (·.afterValue schema byte.toNat)).getD (m.faultAt byte.toNat) := by
  unfold step
  rw [hm]
  cases w <;> rfl

/-- A word is read byte by byte, and is a value with the last of them. -/
theorem step_word {rest : List Nat} {v : Json} :
    m.phase = .word rest v w →
      m.step schema byte =
        match rest with
        | [] => m.fault
        | [c] => if byte.toNat = c then (m.scalar? w v).getD m.fault else m.fault
        | c :: d :: rest =>
          if byte.toNat = c then { m with phase := .word (d :: rest) v w } else m.fault := by
  intro hm
  unfold step
  rewrite [hm]
  rfl

/-- After a fault gaps are passed over, and any other byte settles something of what was open. -/
theorem step_faulted {waiting : List Closer} (hm : m.phase = .faulted waiting) :
    m.step schema byte =
      if isGap byte.toNat then m else { m with phase := .faulted (settle waiting byte.toNat) } := by
  unfold step
  rw [hm]

end Machine

/-! ## Faults -/

def Machine.Faulted (m : Machine ρ) : Prop := ∃ waiting, m.phase = .faulted waiting

namespace Machine

theorem faulted_fault (m : Machine ρ) : m.fault.Faulted := ⟨_, rfl⟩

theorem faulted_faultAt (m : Machine ρ) (b : Nat) : (m.faultAt b).Faulted := ⟨_, rfl⟩

end Machine

theorem Machine.Faulted.step (schema : Schema ρ) {m : Machine ρ} (h : m.Faulted) (byte : UInt8) :
    (m.step schema byte).Faulted := by
  obtain ⟨waiting, hm⟩ := h
  rw [Machine.step_faulted schema byte hm]
  split
  · exact ⟨waiting, hm⟩
  · exact ⟨_, rfl⟩

/-- **A fault is for good.** -/
theorem Machine.Faulted.run (schema : Schema ρ) {m : Machine ρ} (h : m.Faulted)
    (bytes : List UInt8) : (m.run schema bytes).1.Faulted := by
  induction bytes generalizing m with
  | nil => exact h
  | cons byte bytes ih =>
    unfold Machine.run
    split
    · exact h
    · exact ih (h.step schema byte)

theorem Machine.Faulted.ended {m : Machine ρ} (h : m.Faulted) : m.ended.Faulted := by
  obtain ⟨waiting, hm⟩ := h
  unfold Machine.ended
  rw [hm]
  exact ⟨waiting, hm⟩

/-- Nothing is handed out after a fault. -/
theorem Machine.Faulted.handed_run (schema : Schema ρ) {m : Machine ρ} (h : m.Faulted)
    (bytes : List UInt8) : (m.run schema bytes).1.handed = m.handed := by
  induction bytes generalizing m with
  | nil => rfl
  | cons byte bytes ih =>
    have hstep : (m.step schema byte).handed = m.handed := by
      obtain ⟨waiting, hm⟩ := h
      rw [Machine.step_faulted schema byte hm]
      split <;> rfl
    unfold Machine.run
    split
    · rfl
    · exact (ih (h.step schema byte)).trans hstep

theorem Machine.Faulted.handed_ended {m : Machine ρ} (h : m.Faulted) :
    m.ended.handed = m.handed := by
  obtain ⟨waiting, hm⟩ := h
  unfold Machine.ended
  rw [hm]

/-- A machine with a fault has nothing to show for what it has read. -/
theorem Machine.Faulted.complete? {m : Machine ρ} (h : m.Faulted) : m.complete? = none := by
  obtain ⟨waiting, hm⟩ := h
  unfold Machine.complete?
  rw [hm]

/-! ## Bytes one after the other -/

namespace Machine

/-- A machine that has stopped leaves all bytes to whoever comes next. -/
theorem run_of_stopped {m : Machine ρ} (schema : Schema ρ) (h : m.isStopped = true)
    (bytes : List UInt8) : m.run schema bytes = (m, bytes) := by
  cases bytes with
  | nil => rfl
  | cons byte bytes =>
    unfold run
    rw [if_pos h]

theorem run_cons {m : Machine ρ} (schema : Schema ρ) (h : m.isStopped = false) (byte : UInt8)
    (bytes : List UInt8) : m.run schema (byte :: bytes) = (m.step schema byte).run schema bytes := by
  rw [run, h, if_neg Bool.false_ne_true]

/-- **Nothing depends on what comes later**: more bytes are read by the machine that the first ones
have led to. -/
theorem run_append (m : Machine ρ) (schema : Schema ρ) (first more : List UInt8) :
    (m.run schema (first ++ more)).1 = ((m.run schema first).1.run schema more).1 := by
  induction first generalizing m with
  | nil => rfl
  | cons byte first ih =>
    cases h : m.isStopped with
    | true => rw [run_of_stopped schema h, run_of_stopped schema h, run_of_stopped schema h]
    | false =>
      rw [List.cons_append, run_cons schema h, run_cons schema h]
      exact ih _

end Machine

end OData.Json
