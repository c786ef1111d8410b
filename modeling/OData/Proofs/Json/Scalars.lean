import OData.Proofs.Json.Quoted
import OData.Proofs.Json.Trees

/-!
# Scalars that are written are read back

A machine before a value takes the text of the value and is then behind it, with what is wanted of the
value delivered. A number has no end of its own and is delivered with the byte that follows it, or at
the end of the document, which is what `Machine.Settles` says of a machine. **A text that is read as a
number settles to that number** (`Machine.settles_read`), whether it is kept or passed over; the words
and strings come to an end of their own, and the name of a member is taken for that name
(`Machine.feed_name`).
-/

set_option autoImplicit false

namespace OData.Json.Machine

open OData.Text OData.Text.Utf8

variable {ρ : Type} {schema : Schema ρ} {m m' : Machine ρ} {w : Want ρ} {orEnd : Bool}

/-! ## Bytes one after the other -/

/-- The machine after some more bytes. -/
def feed (schema : Schema ρ) (m : Machine ρ) (bytes : List UInt8) : Machine ρ :=
  bytes.foldl (step schema) m

theorem feed_cons (m : Machine ρ) (byte : UInt8) (bytes : List UInt8) :
    m.feed schema (byte :: bytes) = (m.step schema byte).feed schema bytes := rfl

theorem feed_append (m : Machine ρ) (first more : List UInt8) :
    m.feed schema (first ++ more) = (m.feed schema first).feed schema more := List.foldl_append

theorem Faulted.feed (h : m.Faulted) (bytes : List UInt8) : (m.feed schema bytes).Faulted := by
  induction bytes generalizing m with
  | nil => exact h
  | cons byte bytes ih => exact ih (h.step schema byte)

/-- Without a fault, a run takes all the bytes. -/
theorem run_eq_feed {bytes : List UInt8} (h : ¬ (m.feed schema bytes).Faulted) :
    m.run schema bytes = (m.feed schema bytes, []) := by
  induction bytes generalizing m with
  | nil => rfl
  | cons byte bytes ih =>
    have hgoing : m.isStopped = false := by
      cases hstopped : m.isStopped with
      | false => rfl
      | true =>
        refine absurd (Faulted.feed ?_ _) h
        unfold isStopped at hstopped
        split at hstopped
        · next hphase => exact ⟨[], hphase⟩
        · cases hstopped
    rw [run_cons schema hgoing]
    exact ih h

/-! ## Values that are complete -/

/-- The machine is behind a value and comes to `m'`, although it may take the next byte or the end of
the document to show that a number has no more digits. -/
structure Settles (schema : Schema ρ) (m m' : Machine ρ) : Prop where
  phase : m'.phase = .afterValue
  ended : m.ended = m'
  step : ∀ byte : UInt8, byte.toNat ∈ [0x2C, 0x5D, 0x7D] → m.step schema byte = m'.step schema byte

theorem settles_of_eq (h : m = m') (hm : m'.phase = .afterValue) : Settles schema m m' := by
  subst h
  refine ⟨hm, ?_, fun _ _ => rfl⟩
  unfold ended
  rw [hm]

theorem Settles.not_faulted (h : Settles schema m m') : ¬ m.Faulted := by
  intro hfault
  obtain ⟨waiting, hwaiting⟩ := hfault.ended
  rw [h.ended, h.phase] at hwaiting
  cases hwaiting

/-- The byte that follows is one after the value. -/
theorem Settles.next (h : Settles schema m m') {byte : UInt8} (hb : byte.toNat ∈ [0x2C, 0x5D, 0x7D])
    (bytes : List UInt8) :
    m.feed schema (byte :: bytes) = (m'.afterValue schema byte.toNat).feed schema bytes := by
  rw [feed_cons, h.step byte hb, step_afterValue schema byte h.phase]

theorem Settles.comma (h : Settles schema m m') (bytes : List UInt8) :
    m.feed schema (0x2C :: bytes) = (m'.afterValue schema 0x2C).feed schema bytes :=
  h.next (by decide) bytes

theorem phase_of_scalar? {v : Json} (h : m.scalar? w v = some m') : m'.phase = .afterValue := by
  unfold scalar? at h
  split at h
  · cases h
    exact phase_deliver _ _
  · obtain ⟨u, -, rfl⟩ := Option.map_eq_some_iff.mp h
    exact phase_deliver _ _
  · cases h

/-- Where the machine stands makes no difference to what is delivered. -/
theorem scalar?_phase (m : Machine ρ) (p : Phase ρ) (w : Want ρ) (v : Json) :
    ({ m with phase := p } : Machine ρ).scalar? w v = m.scalar? w v := by
  cases w <;> rfl

/-! ## Literal words -/

theorem step_first (hm : m.phase = .value w orEnd) {byte : UInt8} (hgap : isGap byte.toNat = false)
    (hend : byte.toNat ≠ 0x5D) :
    m.step schema byte = m.beginValue schema w byte.toNat := by
  have hgap' : ¬ isGap byte.toNat = true := by
    rw [hgap]
    exact Bool.false_ne_true
  have hend' : ¬ (orEnd && byte.toNat == 0x5D) = true := by
    rw [beq_eq_false_iff_ne.mpr hend, Bool.and_false]
    exact Bool.false_ne_true
  rw [step_value schema byte hm, if_neg hgap', if_neg hend']

/-- The rest of a word shows that it is the scalar it begins like. -/
theorem feed_word {v : Json} (h : m.scalar? w v = some m') (bytes : List UInt8) (hne : bytes ≠ []) :
    ({ m with phase := .word (bytes.map UInt8.toNat) v w } : Machine ρ).feed schema bytes = m' := by
  induction bytes with
  | nil => exact absurd rfl hne
  | cons byte bytes ih =>
    rw [feed_cons, step_word schema byte
      (m := { m with phase := .word ((byte :: bytes).map UInt8.toNat) v w }) rfl]
    cases bytes with
    | nil =>
      rw [List.map_cons, List.map_nil]
      dsimp only
      rw [if_pos rfl, scalar?_phase, h, Option.getD_some]
      rfl
    | cons next bytes =>
      rw [List.map_cons, List.map_cons]
      dsimp only
      rw [if_pos rfl]
      exact ih (List.cons_ne_nil next bytes)

theorem feed_null (hm : m.phase = .value w orEnd) (h : m.scalar? w .null = some m') :
    m.feed schema (encode ['n', 'u', 'l', 'l']) = m' := by
  show feed schema (m.step schema 0x6E) [0x75, 0x6C, 0x6C] = m'
  rw [step_first hm rfl (by decide)]
  exact feed_word h [0x75, 0x6C, 0x6C] (List.cons_ne_nil _ _)

theorem feed_true (hm : m.phase = .value w orEnd) (h : m.scalar? w (.boolean true) = some m') :
    m.feed schema (encode ['t', 'r', 'u', 'e']) = m' := by
  show feed schema (m.step schema 0x74) [0x72, 0x75, 0x65] = m'
  rw [step_first hm rfl (by decide)]
  exact feed_word h [0x72, 0x75, 0x65] (List.cons_ne_nil _ _)

theorem feed_false (hm : m.phase = .value w orEnd) (h : m.scalar? w (.boolean false) = some m') :
    m.feed schema (encode ['f', 'a', 'l', 's', 'e']) = m' := by
  show feed schema (m.step schema 0x66) [0x61, 0x6C, 0x73, 0x65] = m'
  rw [step_first hm rfl (by decide)]
  exact feed_word h [0x61, 0x6C, 0x73, 0x65] (List.cons_ne_nil _ _)

/-! ## Strings -/

/-- A machine in the middle of something takes the bytes that go on with it. -/
theorem feed_of_steps {σ : Type} {next : σ → UInt8 → Option σ} (inside : σ → Machine ρ)
    (hstep : ∀ x byte y, next x byte = some y → (inside x).step schema byte = inside y)
    {x y : σ} {bytes : List UInt8} (h : bytes.foldlM next x = some y) :
    (inside x).feed schema bytes = inside y := by
  induction bytes generalizing x with
  | nil => exact congrArg inside (Option.some.inj h)
  | cons byte bytes ih =>
    rw [List.foldlM_cons] at h
    obtain ⟨z, hz, hrest⟩ := Option.bind_eq_some_iff.mp h
    rw [feed_cons, hstep x byte z hz]
    exact ih hrest

theorem feed_quotation {q q' : Quotation} {bytes : List UInt8}
    (h : Quotation.feed? w.isKept q bytes = some q') :
    ({ m with phase := .quotation q w } : Machine ρ).feed schema bytes =
      { m with phase := .quotation q' w } := by
  refine feed_of_steps (fun q => { m with phase := .quotation q w }) ?_ h
  intro x byte y hmore
  rw [step_quotation schema (m := { m with phase := .quotation x w }) byte rfl,
    Quotation.eq_more_of_more? hmore]

theorem feed_memberName {q q' : Quotation} {bytes : List UInt8}
    (h : Quotation.feed? (!m.isSkipping) q bytes = some q') :
    ({ m with phase := .memberName q } : Machine ρ).feed schema bytes =
      { m with phase := .memberName q' } := by
  refine feed_of_steps (fun q => { m with phase := .memberName q }) ?_ h
  intro x byte y hmore
  have hskipping : ({ m with phase := .memberName x } : Machine ρ).isSkipping = m.isSkipping := rfl
  rw [step_memberName schema (m := { m with phase := .memberName x }) byte rfl, hskipping,
    Quotation.eq_more_of_more? hmore]

/-- What is between the quotes of a string, taken as far as it has to be. -/
theorem feed?_quoted (keep : Bool) (s : String) :
    ∃ bytes, Quotation.feed? keep {} (encode (s.toList.flatMap escapedChar)) =
        some ⟨.plain, bytes⟩ ∧
      (keep = true → Quotation.text? bytes.reverse = some s) := by
  obtain ⟨hfeed, htext⟩ := Quotation.text?_of_quoted s
  cases keep with
  | true =>
    refine ⟨_, hfeed, fun _ => ?_⟩
    rw [List.reverse_reverse]
    exact htext
  | false =>
    obtain ⟨⟨stage, bytes⟩, hskimmed, hskims⟩ := Quotation.feed?_skimmed hfeed (q := {}) .plain
    cases hskims
    exact ⟨bytes, hskimmed, fun h => absurd h Bool.false_ne_true⟩

theorem encode_quoted (s : String) :
    encode (quoted s) = 0x22 :: (encode (s.toList.flatMap escapedChar) ++ [0x22]) := by
  show encode ('"' :: (s.toList.flatMap escapedChar ++ ['"'])) = _
  rw [encode_cons, encode_append]
  rfl

theorem feed_text (hm : m.phase = .value w orEnd) {s : String}
    (h : m.scalar? w (.text s) = some m') : m.feed schema (encode (quoted s)) = m' := by
  obtain ⟨bytes, hfeed, htext⟩ := feed?_quoted w.isKept s
  rw [encode_quoted, feed_cons, step_first hm rfl (by decide), feed_append]
  show feed schema (feed schema { m with phase := .quotation {} w } _) [0x22] = m'
  rw [feed_quotation hfeed, feed_cons,
    step_quotation schema (m := { m with phase := .quotation ⟨.plain, bytes⟩ w }) 0x22 rfl]
  show (if w.isKept = true then
    (((Quotation.text? bytes.reverse).bind fun s =>
      ({ m with phase := .quotation ⟨.plain, bytes⟩ w } : Machine ρ).scalar? w (.text s))).getD _
    else m.deliver .skipped) = m'
  cases hw : w.isKept with
  | true => rw [if_pos rfl, htext hw, Option.bind_some, scalar?_phase, h, Option.getD_some]
  | false =>
    rw [if_neg Bool.false_ne_true]
    cases w with
    | skip => exact Option.some.inj h
    | build => cases hw
    | descend => cases hw

/-- **The name of a member is taken for that name**, where names matter. -/
theorem feed_name (hm : m.phase = .name orEnd) (name : String) :
    m.feed schema (encode (quoted name)) =
      if m.isSkipping then { m with phase := .colon .skip } else m.named schema name := by
  obtain ⟨bytes, hfeed, htext⟩ := feed?_quoted (!m.isSkipping) name
  have hquote : m.step schema 0x22 = { m with phase := .memberName {} } := by
    rw [step_name schema 0x22 hm]
    rfl
  have hskipping : ({ m with phase := .memberName ⟨.plain, bytes⟩ } : Machine ρ).isSkipping =
    m.isSkipping := rfl
  have hend : Quotation.step (!m.isSkipping) ⟨.plain, bytes⟩ 0x22 = .done bytes.reverse := rfl
  rw [encode_quoted, feed_cons, hquote, feed_append, feed_memberName hfeed, feed_cons,
    step_memberName schema (m := { m with phase := .memberName ⟨.plain, bytes⟩ }) 0x22 rfl,
    hskipping, hend]
  cases hs : m.isSkipping with
  | true => rfl
  | false =>
    dsimp only
    rw [if_neg Bool.false_ne_true, if_neg Bool.false_ne_true, htext (by rw [hs]; rfl)]
    rfl

/-! ## Numbers -/

theorem feed_numeral {n n' : Numeral} {s : List Char} (hs : ∀ c ∈ s, c.toNat < 0x80)
    (h : n.feed? w.isKept s = some n') :
    ({ m with phase := .numeral n w } : Machine ρ).feed schema (encode s) =
      { m with phase := .numeral n' w } := by
  induction s generalizing n with
  | nil =>
    cases h
    rfl
  | cons c s ih =>
    obtain ⟨hc, hs⟩ := List.forall_mem_cons.mp hs
    have hbyte : (c.toNat.toUInt8).toNat = c.toNat := toNat_toUInt8 (by omega)
    rw [Numeral.feed?_cons] at h
    obtain ⟨next, hnext, hrest⟩ := Option.bind_eq_some_iff.mp h
    rw [encode_cons, encodeChar_of_lt hc, List.singleton_append, feed_cons,
      step_numeral schema (m := { m with phase := .numeral n w }) _ rfl, hbyte,
      Numeral.eq_more_of_more? hnext]
    exact ih hs hrest

theorem isComplete_iff (n : Numeral) : n.isComplete = true ↔
    n.stage = .zero ∨ n.stage = .whole ∨ n.stage = .fraction ∨ n.stage = .power := by
  unfold Numeral.isComplete
  cases n.stage <;> simp

/-- A complete number ends before a comma and before a closing bracket. -/
theorem step_complete {n : Numeral} (h : n.isComplete = true) (keep : Bool) {b : Nat}
    (hb : b ∈ [0x2C, 0x5D, 0x7D]) : n.step keep b = .done := by
  have hends : b = 0x2C ∨ b = 0x5D ∨ b = 0x7D := by simpa using hb
  have hdigit : ¬ (0x30 ≤ b ∧ b ≤ 0x39) := by omega
  have hpoint : b ≠ 0x2E := by omega
  have hmark : ¬ (b = 0x65 ∨ b = 0x45) := by omega
  unfold Numeral.step
  dsimp only
  rw [if_neg hdigit]
  rcases (isComplete_iff n).mp h with hn | hn | hn | hn
  · rw [hn]
    dsimp only
    rw [if_neg hpoint, if_neg hmark]
  · rw [hn]
    dsimp only
    rw [if_neg hpoint, if_neg hmark]
  · rw [hn]
    dsimp only
    rw [if_neg hmark]
  · rw [hn]

theorem number?_phase (m : Machine ρ) (p : Phase ρ) (w : Want ρ) (n : Numeral) :
    ({ m with phase := p } : Machine ρ).number? w n = m.number? w n := by
  have hscalar : ({ m with phase := p } : Machine ρ).scalar? w = m.scalar? w :=
    funext fun v => scalar?_phase m p w v
  cases w with
  | skip => exact scalar?_phase m p .skip .null
  | _ => exact congrArg n.value?.bind hscalar

theorem settles_numeral {n : Numeral} (hn : n.isComplete = true)
    (h : m.number? w n = some m') (hphase : m'.phase = .afterValue) :
    Settles schema { m with phase := .numeral n w } m' := by
  have hnumber : ({ m with phase := .numeral n w } : Machine ρ).number? w n = some m' := by
    rw [number?_phase, h]
  refine ⟨hphase, ?_, ?_⟩
  · unfold ended
    dsimp only
    rw [if_pos hn, hnumber, Option.getD_some]
  · intro byte hb
    rw [step_numeral schema (m := { m with phase := .numeral n w }) byte rfl,
      step_complete hn w.isKept hb, step_afterValue schema byte hphase]
    dsimp only
    rw [hnumber]
    rfl

/-- A text that is read as a number is taken for that number. -/
theorem settles_read (hm : m.phase = .value w orEnd) {s : List Char} {n : Numeral} {v : Json}
    (hread : Numeral.read? true s = some n) (hn : n.isComplete = true) (hv : n.value? = some v)
    (h : m.scalar? w v = some m') : Settles schema (m.feed schema (encode s)) m' := by
  have hnumber : m.number? w n = some m' := by
    by_cases hw : w = .skip
    · subst hw
      exact h
    · rw [number?_of_ne hw hv, h]
  cases s with
  | nil => cases hread
  | cons c s =>
    obtain ⟨hc, hs⟩ := List.forall_mem_cons.mp (Numeral.ascii_of_read? hread)
    obtain ⟨first, hfirst, hrest⟩ := Option.bind_eq_some_iff.mp hread
    have hrange := Numeral.start?_eq_some hfirst
    have hbyte : (c.toNat.toUInt8).toNat = c.toNat := toNat_toUInt8 (by omega)
    have hgap : isGap (c.toNat.toUInt8).toNat = false := by
      rw [hbyte]
      unfold isGap
      simp only [Bool.or_eq_false_iff, beq_eq_false_iff_ne]
      omega
    have hstart : m.step schema c.toNat.toUInt8 = { m with phase := .numeral first w } := by
      rw [step_first hm hgap (by omega), hbyte, beginValue, if_neg (by omega), if_neg (by omega),
        if_neg (by omega), if_neg (by omega), if_neg (by omega), if_neg (by omega), hfirst]
    rw [encode_cons, encodeChar_of_lt hc, List.singleton_append, feed_cons, hstart,
      feed_numeral hs (Numeral.feed?_skimmed hrest)]
    exact settles_numeral hn hnumber (phase_of_scalar? h)

theorem settles_integer (hm : m.phase = .value w orEnd) {i : Int} (hi : Native i)
    (h : m.scalar? w (.integer i) = some m') :
    Settles schema (m.feed schema (encode (signedDigits i))) m' := by
  obtain ⟨n, hread, hv, hstage⟩ := Numeral.read?_signedDigits true hi
  refine settles_read hm hread ?_ hv h
  exact (isComplete_iff n).mpr (hstage.imp_right .inl)

end OData.Json.Machine
