import OData.Multipart.Reader

/-!
# What the reader does, step by step

One equation for each operation of the multipart reader, so that what is proved of a whole walk
never opens an operation again. The last section measures them. All of them only go on, and fail for
no other reason than that a broken stream is used up (`Orderly`); **every part takes up a line**
(`length_nextPart`), and **so does every entry but the last of its changeset**, with which the
changeset itself is used up (`stock_nextInChangeset`).
-/

set_option autoImplicit false

namespace OData.Multipart

open OData.Text

variable {α β : Type}

/-! ## Running -/

namespace Reading

/-- What reading gives on a reader, and the reader afterwards. -/
def on (r : Reader) (x : Reading α) : Except Broken α × Reader := x.run.run r

theorem on_pure (r : Reader) (a : α) : on r (pure a : Reading α) = (.ok a, r) := rfl

theorem on_bind (r : Reader) (x : Reading α) (f : α → Reading β) :
    on r (x >>= f) =
      match on r x with
      | (.ok a, r') => on r' (f a)
      | (.error e, r') => (.error e, r') := by
  unfold on
  rw [ExceptT.run_bind, StateT.run_bind]
  cases h : (ExceptT.run x).run r with
  | mk outcome r' => cases outcome <;> rfl

theorem on_bind_ok {r r' : Reader} {x : Reading α} {a : α} (h : on r x = (.ok a, r'))
    (f : α → Reading β) : on r (x >>= f) = on r' (f a) := by
  rw [on_bind, h]

theorem on_bind_eq_ok {r r'' : Reader} {x : Reading α} {f : α → Reading β} {b : β}
    (h : on r (x >>= f) = (.ok b, r'')) :
    ∃ a r', on r x = (.ok a, r') ∧ on r' (f a) = (.ok b, r'') := by
  rw [on_bind] at h
  split at h
  · next a r' ha => exact ⟨a, r', ha, h⟩
  · cases h

theorem on_get_bind (r : Reader) (f : Reader → Reading α) : on r (get >>= f) = on r (f r) := rfl

theorem on_modify_bind (r : Reader) (g : Reader → Reader) (f : Unit → Reading α) :
    on r (modify g >>= f) = on (g r) (f ⟨⟩) := rfl

theorem on_discard (r : Reader) (x : Reading α) :
    on r (discard x) = ((on r x).1.map fun _ => ⟨⟩, (on r x).2) := by
  show on r ((fun _ => PUnit.unit) <$> x) = _
  rw [map_eq_pure_bind, on_bind]
  split <;> next h => rw [h]; rfl

theorem on_discard_ok {r r' : Reader} {x : Reading α} {a : α} (h : on r x = (.ok a, r')) :
    on r (discard x) = (.ok ⟨⟩, r') := by
  rw [on_discard, h]
  rfl

/-! ## The operations -/

/-- Passing over lines fails on a broken stream that has run out, and never otherwise. -/
theorem on_goOn (r : Reader) (ranOut : Bool) (rest : List Line) :
    on r (goOn ranOut rest) =
      (if ranOut && r.broken then .error ⟨⟩ else .ok ⟨⟩, { r with lines := rest }) := by
  unfold goOn
  rw [on_get_bind]
  by_cases h : (ranOut && r.broken) = true
  · rw [if_pos h, if_pos h]; rfl
  · rw [if_neg h, if_neg h]; rfl

/-- A block ends with a delimiter or with the stream, and fails where a broken one ends. -/
theorem on_block (r : Reader) (boundary : List Char) {ls : List (List Char)} {stop : Stop}
    {rest : List Line} (hu : untilDelimiter boundary r.lines = (ls, stop, rest)) :
    on r (block boundary) =
      (if stop == .exhausted && r.broken then .error ⟨⟩ else .ok (ls, stop),
        { r with lines := rest }) := by
  unfold block
  rw [on_get_bind, hu, on_bind, on_goOn]
  by_cases h : (stop == .exhausted && r.broken) = true
  · rw [if_pos h, if_pos h]
  · rw [if_neg h, if_neg h]; rfl

theorem on_head (r : Reader) {ls : List (List Char)} {found : Bool} {rest : List Line}
    (hu : untilEmpty r.lines = (ls, found, rest)) :
    on r head =
      (if !found && r.broken then .error ⟨⟩ else .ok (ls, found), { r with lines := rest }) := by
  unfold head
  rw [on_get_bind, hu, on_bind, on_goOn]
  by_cases h : (!found && r.broken) = true
  · rw [if_pos h, if_pos h]
  · rw [if_neg h, if_neg h]; rfl

theorem on_block_unbroken {r : Reader} (hb : r.broken = false) {boundary : List Char}
    {ls : List (List Char)} {stop : Stop} {rest : List Line}
    (hu : untilDelimiter boundary r.lines = (ls, stop, rest)) :
    on r (block boundary) = (.ok (ls, stop), { r with lines := rest }) := by
  rw [on_block r boundary hu, if_neg (by simp [hb])]

theorem on_head_unbroken {r : Reader} (hb : r.broken = false) {ls : List (List Char)}
    {found : Bool} {rest : List Line} (hu : untilEmpty r.lines = (ls, found, rest)) :
    on r head = (.ok (ls, found), { r with lines := rest }) := by
  rw [on_head r hu, if_neg (by simp [hb])]

/-- The reader after a block of the batch itself. -/
def afterOuter (r : Reader) (stop : Stop) (rest : List Line) : Reader :=
  { r with lines := rest, finished := r.finished || stop.isFinal }

theorem on_outerBlock {r : Reader} (hb : r.broken = false) {ls : List (List Char)} {stop : Stop}
    {rest : List Line} (hu : untilDelimiter r.boundary r.lines = (ls, stop, rest)) :
    on r outerBlock = (.ok ls, afterOuter r stop rest) := by
  unfold outerBlock
  rw [on_get_bind, on_bind_ok (on_block_unbroken hb hu)]
  dsimp only [afterOuter]
  cases stop.isFinal with
  | false => rw [Bool.or_false]; rfl
  | true => rw [Bool.or_true]; rfl

/-- Also when it fails, a block of the batch leaves the reader in its changeset. -/
theorem changeset_outerBlock (r : Reader) : (on r outerBlock).2.changeset = r.changeset := by
  rcases hu : untilDelimiter r.boundary r.lines with ⟨ls, stop, rest⟩
  unfold outerBlock
  rw [on_get_bind, on_bind, on_block r r.boundary hu]
  by_cases h : (stop == .exhausted && r.broken) = true
  · rw [if_pos h]
  · rw [if_neg h]
    cases stop <;> rfl

/-! ### The next entry of a changeset -/

theorem on_nextInChangeset_none {r : Reader} (hc : r.changeset = none) :
    on r nextInChangeset = (.ok none, r) := by
  unfold nextInChangeset
  rw [on_get_bind, hc]
  rfl

/-- An entry that another one follows. The reader stays in the changeset. -/
theorem on_nextInChangeset_delimiter {r : Reader} (hb : r.broken = false) {c : List Char}
    (hc : r.changeset = some c) {top payload : List (List Char)} {found : Bool}
    {rest rest' : List Line} (hh : untilEmpty r.lines = (top, found, rest))
    (hu : untilDelimiter c rest = (payload, .delimiter, rest')) :
    on r nextInChangeset =
      (.ok (some ⟨textOf top, textOf payload⟩), { r with lines := rest' }) := by
  obtain ⟨boundary, ls, broken, started, finished, changeset⟩ := r
  obtain rfl : broken = false := hb
  obtain rfl : changeset = some c := hc
  have hblock := on_block_unbroken
    (r := ⟨boundary, rest, false, started, finished, some c⟩) rfl hu
  unfold nextInChangeset
  rw [on_get_bind, on_bind_ok (on_head_unbroken rfl hh), on_bind_ok hblock]
  rfl

/-- The last entry of a changeset. What follows it belongs to the batch again, up to its next
delimiter. -/
theorem on_nextInChangeset_final {r : Reader} (hb : r.broken = false) {c : List Char}
    (hc : r.changeset = some c) {top payload skipped : List (List Char)} {found : Bool}
    {stop stop' : Stop} {rest rest' rest'' : List Line}
    (hh : untilEmpty r.lines = (top, found, rest))
    (hu : untilDelimiter c rest = (payload, stop, rest')) (hf : stop.isFinal = true)
    (ho : untilDelimiter r.boundary rest' = (skipped, stop', rest'')) :
    on r nextInChangeset =
      (.ok (some ⟨textOf top, textOf payload⟩),
        afterOuter { r with lines := rest', changeset := none } stop' rest'') := by
  obtain ⟨boundary, ls, broken, started, finished, changeset⟩ := r
  obtain rfl : broken = false := hb
  obtain rfl : changeset = some c := hc
  have hblock := on_block_unbroken
    (r := ⟨boundary, rest, false, started, finished, some c⟩) rfl hu
  have houter := on_outerBlock
    (r := ⟨boundary, rest', false, started, finished, none⟩) rfl ho
  unfold nextInChangeset
  rw [on_get_bind, on_bind_ok (on_head_unbroken rfl hh), on_bind_ok hblock]
  dsimp only
  rw [if_pos hf, on_modify_bind, on_bind_ok (on_discard_ok houter)]
  rfl

/-! ### The next part -/

/-- A part without a boundary in its head is a single entry. -/
theorem on_partUnder_single {r : Reader} (hb : r.broken = false) {top payload : List (List Char)}
    (hn : boundaryOf? (headersOf (lines (joinWith ['\n'] top))) = none) {stop : Stop}
    {rest : List Line} (hu : untilDelimiter r.boundary r.lines = (payload, stop, rest)) :
    on r (partUnder top) =
      (.ok (.single (some ⟨textOf top, textOf payload⟩)), afterOuter r stop rest) := by
  unfold partUnder
  rw [hn]
  exact on_bind_ok (on_outerBlock hb hu) _

/-- A part with a head that names a boundary is a changeset, and the reader is in it if it has
entries. -/
theorem on_partUnder_changeset {r : Reader} (hb : r.broken = false) {top skipped : List (List Char)}
    {inner : String} (hn : boundaryOf? (headersOf (lines (joinWith ['\n'] top))) = some inner)
    {rest : List Line}
    (hu : untilDelimiter inner.toList r.lines = (skipped, .delimiter, rest)) :
    on r (partUnder top) =
      (.ok .changeset, { r with lines := rest, changeset := some inner.toList }) := by
  unfold partUnder
  rw [hn]
  exact on_bind_ok (on_block_unbroken hb hu) _

/-- A changeset without entries is passed over at once. -/
theorem on_partUnder_empty {r : Reader} (hb : r.broken = false)
    {top skipped skipped' : List (List Char)} {inner : String}
    (hn : boundaryOf? (headersOf (lines (joinWith ['\n'] top))) = some inner) {stop stop' : Stop}
    {rest rest' : List Line} (hu : untilDelimiter inner.toList r.lines = (skipped, stop, rest))
    (hf : stop.isFinal = true) (ho : untilDelimiter r.boundary rest = (skipped', stop', rest')) :
    on r (partUnder top) = (.ok .changeset, afterOuter r stop' rest') := by
  have houter := on_outerBlock (r := { r with lines := rest }) hb ho
  unfold partUnder
  rw [hn]
  dsimp only
  rw [on_bind_ok (on_block_unbroken hb hu)]
  dsimp only
  rw [if_pos hf, on_bind_ok (on_discard_ok houter)]
  rfl

/-- The preamble is skipped when the first part is asked for, and noted as skipped. -/
theorem on_skipPreamble {r : Reader} (hb : r.broken = false) (hs : r.started = false)
    {skipped : List (List Char)} {stop : Stop} {rest : List Line}
    (hu : untilDelimiter r.boundary r.lines = (skipped, stop, rest)) :
    on r skipPreamble = (.ok ⟨⟩, afterOuter { r with started := true } stop rest) := by
  have houter := on_outerBlock (r := { r with started := true }) hb hu
  unfold skipPreamble
  rw [on_get_bind, hs, if_pos Bool.not_false, on_modify_bind, on_discard_ok houter]

theorem on_skipPreamble_started {r : Reader} (hs : r.started = true) :
    on r skipPreamble = (.ok ⟨⟩, r) := by
  unfold skipPreamble
  rw [on_get_bind, hs]
  rfl

/-- The first part is the part that comes after the preamble. -/
theorem on_nextPart_start {r : Reader} (hb : r.broken = false) (hs : r.started = false)
    {skipped : List (List Char)} {stop : Stop} {rest : List Line}
    (hu : untilDelimiter r.boundary r.lines = (skipped, stop, rest)) :
    on r nextPart = on (afterOuter { r with started := true } stop rest) nextPart := by
  unfold nextPart
  rw [on_bind_ok (on_skipPreamble hb hs hu), on_bind_ok (on_skipPreamble_started rfl)]

theorem on_skipChangeset_none {r : Reader} (hc : r.changeset = none) (n : Nat) :
    on r (skipChangeset (n + 1)) = (.ok ⟨⟩, r) := by
  unfold skipChangeset
  rw [on_bind_ok (on_nextInChangeset_none hc)]
  rfl

theorem on_nextPart_finished {r : Reader} (hs : r.started = true) (hc : r.changeset = none)
    (hf : r.finished = true) : on r nextPart = (.ok none, r) := by
  unfold nextPart
  rw [on_bind_ok (on_skipPreamble_started hs), on_get_bind,
    on_bind_ok (on_skipChangeset_none hc _), on_get_bind, if_pos hf]
  rfl

/-- Between two parts, the head of the next one is read and then what is under it. -/
theorem on_nextPart_head {r r' : Reader} (hb : r.broken = false) (hs : r.started = true)
    (hc : r.changeset = none) (hf : r.finished = false) {top : List (List Char)}
    {rest : List Line} (hh : untilEmpty r.lines = (top, true, rest)) {p : Part}
    (hp : on { r with lines := rest } (partUnder top) = (.ok p, r')) :
    on r nextPart = (.ok (some p), r') := by
  unfold nextPart
  rw [on_bind_ok (on_skipPreamble_started hs), on_get_bind,
    on_bind_ok (on_skipChangeset_none hc _), on_get_bind, if_neg (by rw [hf]; decide),
    on_bind_ok (on_head_unbroken hb hh)]
  exact on_bind_ok hp _

/-! ## Lines are used up -/

theorem suffix_untilDelimiter {boundary : List Char} {ls : List Line} {top : List (List Char)}
    {stop : Stop} {rest : List Line} (hu : untilDelimiter boundary ls = (top, stop, rest)) :
    rest <:+ ls := by
  induction ls generalizing top with
  | nil =>
    cases hu
    exact List.suffix_rfl
  | cons l ls ih =>
    unfold untilDelimiter at hu
    split at hu
    · cases hu
      exact List.suffix_cons l _
    split at hu
    · cases hu
      exact List.suffix_cons l _
    · cases hu
      exact (ih rfl).trans (List.suffix_cons l _)

theorem suffix_untilEmpty {ls : List Line} {top : List (List Char)} {found : Bool}
    {rest : List Line} (hu : untilEmpty ls = (top, found, rest)) : rest <:+ ls := by
  induction ls generalizing top with
  | nil =>
    cases hu
    exact List.suffix_rfl
  | cons l ls ih =>
    unfold untilEmpty at hu
    split at hu
    · cases hu
      exact List.suffix_cons l _
    · cases hu
      exact (ih rfl).trans (List.suffix_cons l _)

/-- A block puts no lines back, and one that ends with a delimiter uses up a line for it. -/
theorem length_untilDelimiter {boundary : List Char} {ls : List Line} {top : List (List Char)}
    {stop : Stop} {rest : List Line} (hu : untilDelimiter boundary ls = (top, stop, rest)) :
    rest.length ≤ ls.length ∧ (stop ≠ .exhausted → rest.length < ls.length) := by
  induction ls generalizing top with
  | nil =>
    cases hu
    simp
  | cons l ls ih =>
    unfold untilDelimiter at hu
    split at hu
    · cases hu
      simp
    split at hu
    · cases hu
      simp
    · cases hu
      obtain ⟨hle, hlt⟩ := ih rfl
      refine ⟨Nat.le_succ_of_le hle, ?_⟩
      intro h
      exact Nat.lt_succ_of_lt (hlt h)

/-- A head uses up a line if it has lines itself or a blank line behind it. -/
theorem length_untilEmpty {ls : List Line} {top : List (List Char)} {found : Bool}
    {rest : List Line} (hu : untilEmpty ls = (top, found, rest)) :
    rest.length ≤ ls.length ∧ (found = true ∨ top ≠ [] → rest.length < ls.length) := by
  induction ls generalizing top with
  | nil =>
    cases hu
    simp
  | cons l ls ih =>
    unfold untilEmpty at hu
    split at hu
    · cases hu
      simp
    · cases hu
      have hle := (ih rfl).1
      exact ⟨Nat.le_succ_of_le hle, fun _ => Nat.lt_succ_of_le hle⟩

theorem rest_of_exhausted {boundary : List Char} {ls : List Line} {top : List (List Char)}
    {rest : List Line} (hu : untilDelimiter boundary ls = (top, .exhausted, rest)) : rest = [] := by
  induction ls generalizing top with
  | nil =>
    cases hu
    rfl
  | cons l ls ih =>
    unfold untilDelimiter at hu
    split at hu
    · cases hu
    split at hu
    · cases hu
    · obtain ⟨-, htail⟩ := Prod.mk.inj hu
      exact ih (Prod.ext rfl htail)

theorem rest_of_not_found {ls : List Line} {top : List (List Char)} {rest : List Line}
    (hu : untilEmpty ls = (top, false, rest)) : rest = [] := by
  induction ls generalizing top with
  | nil =>
    cases hu
    rfl
  | cons l ls ih =>
    unfold untilEmpty at hu
    split at hu
    · cases hu
    · obtain ⟨-, htail⟩ := Prod.mk.inj hu
      exact ih (Prod.ext rfl htail)

/-- How far a reader may have got: its stream is the same, what has been started stays so, and no
lines are put back. -/
structure Onward (r r' : Reader) : Prop where
  broken : r'.broken = r.broken
  started : r.started = true → r'.started = true
  lines : r'.lines.length ≤ r.lines.length

namespace Onward

theorem refl (r : Reader) : Onward r r := ⟨rfl, id, Nat.le_refl _⟩

theorem trans {r r' r'' : Reader} (h : Onward r r') (h' : Onward r' r'') : Onward r r'' where
  broken := h'.broken.trans h.broken
  started := fun hs => h'.started (h.started hs)
  lines := Nat.le_trans h'.lines h.lines

theorem of_lines {r : Reader} {ls : List Line} (h : ls.length ≤ r.lines.length) :
    Onward r { r with lines := ls } := ⟨rfl, id, h⟩

end Onward

/-- Reading that only goes on, and that fails for no other reason than that the lines of a broken
stream have run out. -/
structure Orderly (x : Reading α) : Prop where
  onward : ∀ r, Onward r (on r x).2
  spent : ∀ r e, (on r x).1 = .error e → r.broken = true ∧ (on r x).2.lines = []

namespace Orderly

/-- What does not fail has to go on only. -/
theorem of_ok {x : Reading α} (h : ∀ r, Onward r (on r x).2 ∧ ∃ a, (on r x).1 = .ok a) :
    Orderly x where
  onward := fun r => (h r).1
  spent := by
    intro r e he
    obtain ⟨a, ha⟩ := (h r).2
    rw [ha] at he
    cases he

theorem pure (a : α) : Orderly (pure a : Reading α) := of_ok fun r => ⟨.refl r, a, rfl⟩

theorem get : Orderly (get : Reading Reader) := of_ok fun r => ⟨.refl r, r, rfl⟩

theorem modify {f : Reader → Reader} (hf : ∀ r, Onward r (f r)) :
    Orderly (modify f : Reading Unit) := of_ok fun r => ⟨hf r, ⟨⟩, rfl⟩

theorem bind {x : Reading α} {f : α → Reading β} (hx : Orderly x) (hf : ∀ a, Orderly (f a)) :
    Orderly (x >>= f) where
  onward := by
    intro r
    have hr := hx.onward r
    rw [on_bind]
    split
    · next a r' ha =>
      rw [ha] at hr
      exact hr.trans ((hf a).onward r')
    · next e r' he => rwa [he] at hr
  spent := by
    intro r e he
    rw [on_bind] at he ⊢
    split at he
    · next a r' ha =>
      obtain ⟨hb, hl⟩ := (hf a).spent r' e he
      have hr := (hx.onward r).broken
      rw [ha] at hr
      exact ⟨hr.symm.trans hb, hl⟩
    · next e' r' hx' =>
      have hr := hx.spent r e'
      rw [hx'] at hr
      exact hr rfl

theorem discard {x : Reading α} (hx : Orderly x) : Orderly (Functor.discard x) where
  onward := by
    intro r
    rw [on_discard]
    exact hx.onward r
  spent := by
    intro r e he
    rw [on_discard] at he ⊢
    cases ho : (on r x).1 with
    | ok a =>
      rw [ho] at he
      cases he
    | error e' => exact hx.spent r e' ho

end Orderly

theorem orderly_block (boundary : List Char) : Orderly (block boundary) where
  onward := by
    intro r
    rcases hu : untilDelimiter boundary r.lines with ⟨top, stop, rest⟩
    rw [on_block r boundary hu]
    exact .of_lines (length_untilDelimiter hu).1
  spent := by
    intro r e he
    rcases hu : untilDelimiter boundary r.lines with ⟨top, stop, rest⟩
    rw [on_block r boundary hu] at he ⊢
    split at he
    · next hstop =>
      obtain ⟨hs, hb⟩ := Bool.and_eq_true_iff.mp hstop
      rw [eq_of_beq hs] at hu
      exact ⟨hb, rest_of_exhausted hu⟩
    · cases he

theorem orderly_head : Orderly head where
  onward := by
    intro r
    rcases hu : untilEmpty r.lines with ⟨top, found, rest⟩
    rw [on_head r hu]
    exact .of_lines (length_untilEmpty hu).1
  spent := by
    intro r e he
    rcases hu : untilEmpty r.lines with ⟨top, found, rest⟩
    rw [on_head r hu] at he ⊢
    split at he
    · next hfound =>
      obtain ⟨hf, hb⟩ := Bool.and_eq_true_iff.mp hfound
      rw [Bool.not_eq_true' found] at hf
      rw [hf] at hu
      exact ⟨hb, rest_of_not_found hu⟩
    · cases he

theorem orderly_outerBlock : Orderly outerBlock := by
  refine Orderly.get.bind fun r => ?_
  refine (orderly_block r.boundary).bind fun ⟨top, stop⟩ => ?_
  dsimp only
  split
  · exact Orderly.bind (.modify fun _ => ⟨rfl, id, Nat.le_refl _⟩) fun _ => .pure _
  · exact .pure _

theorem orderly_nextInChangeset : Orderly nextInChangeset := by
  refine Orderly.get.bind fun r => ?_
  split
  · exact .pure _
  · next boundary _ =>
    refine orderly_head.bind fun _ => ?_
    refine (orderly_block boundary).bind fun _ => ?_
    dsimp only
    split
    · refine Orderly.bind (.modify fun _ => ⟨rfl, id, Nat.le_refl _⟩) fun _ => ?_
      exact orderly_outerBlock.discard.bind fun _ => .pure _
    · exact .pure _

theorem orderly_skipChangeset (n : Nat) : Orderly (skipChangeset n) := by
  induction n with
  | zero => exact .pure _
  | succ n ih =>
    refine orderly_nextInChangeset.bind fun e => ?_
    cases e with
    | none => exact .pure _
    | some _ => exact ih

theorem orderly_partUnder (top : List (List Char)) : Orderly (partUnder top) := by
  unfold partUnder
  split
  · refine (orderly_block _).bind fun _ => ?_
    dsimp only
    split
    · exact orderly_outerBlock.discard.bind fun _ => .pure _
    · exact Orderly.bind (.modify fun _ => ⟨rfl, id, Nat.le_refl _⟩) fun _ => .pure _
  · exact orderly_outerBlock.bind fun _ => .pure _

theorem orderly_skipPreamble : Orderly skipPreamble := by
  refine Orderly.get.bind fun r => ?_
  split
  · exact Orderly.bind (.modify fun _ => ⟨rfl, fun _ => rfl, Nat.le_refl _⟩) fun _ =>
      orderly_outerBlock.discard
  · exact .pure _

/-- **Asking for a part only goes on**, and fails for nothing but a broken stream. -/
theorem orderly_nextPart : Orderly nextPart := by
  refine orderly_skipPreamble.bind fun _ => ?_
  refine Orderly.get.bind fun r => ?_
  refine (orderly_skipChangeset _).bind fun _ => ?_
  refine Orderly.get.bind fun r' => ?_
  split
  · exact .pure _
  refine orderly_head.bind fun ⟨top, found⟩ => ?_
  have hrest : Orderly (if (!found && top.isEmpty) = true then return none
      else return some (← partUnder top) : Reading (Option Part)) := by
    split
    · exact .pure _
    · exact (orderly_partUnder top).bind fun _ => .pure _
  dsimp only
  split
  · exact Orderly.bind (.modify fun _ => ⟨rfl, id, Nat.le_refl _⟩) fun _ => hrest
  · exact hrest

/-- What comes of asking for a part, once what stands before it has been passed over: the batch is
over, or a head is read, and then what is under it. Without a blank line behind it, a head counts only
if it has lines itself. -/
theorem nextPart_cases {r r' : Reader} {p : Option Part} (h : on r nextPart = (.ok p, r')) :
    ∃ r₀ r₁, on r skipPreamble = (.ok ⟨⟩, r₀) ∧
      on r₀ (skipChangeset (r₀.lines.length + 2)) = (.ok ⟨⟩, r₁) ∧
      ((p = none ∧ ∃ rest, rest <:+ r₁.lines ∧
          r' = { r₁ with lines := rest, finished := true }) ∨
        r₁.finished = false ∧ ∃ q top found rest, p = some q ∧
          untilEmpty r₁.lines = (top, found, rest) ∧ (found = true ∨ top ≠ []) ∧
          on { r₁ with lines := rest, finished := !found } (partUnder top) = (.ok q, r')) := by
  unfold nextPart at h
  obtain ⟨_, r₀, h₀, h⟩ := on_bind_eq_ok h
  rw [on_get_bind] at h
  obtain ⟨_, r₁, h₁, h⟩ := on_bind_eq_ok h
  refine ⟨r₀, r₁, h₀, h₁, ?_⟩
  rw [on_get_bind] at h
  cases hf : r₁.finished with
  | true =>
    rw [hf] at h
    cases h
    exact .inl ⟨rfl, _, List.suffix_rfl, by rw [← hf]⟩
  | false =>
    rw [hf, if_neg Bool.false_ne_true] at h
    obtain ⟨⟨top, found⟩, r₂, h₂, h⟩ := on_bind_eq_ok h
    rcases hu : untilEmpty r₁.lines with ⟨top', found', rest⟩
    rw [on_head r₁ hu] at h₂
    obtain ⟨hout, rfl⟩ := Prod.mk.inj h₂
    split at hout
    · cases hout
    cases hout
    cases found with
    | true =>
      obtain ⟨q, r₃, h₃, h⟩ := on_bind_eq_ok h
      cases h
      refine .inr ⟨rfl, q, top, true, rest, rfl, rfl, .inl rfl, ?_⟩
      rw [← h₃, Bool.not_true, ← hf]
    | false =>
      cases top with
      | nil =>
        cases h
        exact .inl ⟨rfl, rest, suffix_untilEmpty hu, rfl⟩
      | cons l top =>
        dsimp only at h
        rw [if_pos Bool.not_false, on_modify_bind] at h
        obtain ⟨q, r₃, h₃, h⟩ := on_bind_eq_ok h
        cases h
        exact .inr ⟨rfl, q, l :: top, false, rest, rfl, rfl, .inr (List.cons_ne_nil l top), h₃⟩

/-- **A part takes up a line.** -/
theorem length_nextPart {r r' : Reader} {p : Part} (h : on r nextPart = (.ok (some p), r')) :
    r'.lines.length < r.lines.length := by
  obtain ⟨r₀, r₁, h₀, h₁, ⟨hnone, -⟩ | ⟨-, q, top, found, rest, hsome, hu, hlines, hq⟩⟩ :=
    nextPart_cases h
  · cases hnone
  -- What is skipped before the part puts nothing back.
  have hle₀ := (orderly_skipPreamble.onward r).lines
  have hle₁ := ((orderly_skipChangeset (r₀.lines.length + 2)).onward r₀).lines
  rw [h₀] at hle₀
  rw [h₁] at hle₁
  have hlt := (length_untilEmpty hu).2 hlines
  have hle := ((orderly_partUnder top).onward { r₁ with lines := rest, finished := !found }).lines
  rw [hq] at hle
  exact Nat.lt_of_le_of_lt hle (Nat.lt_of_lt_of_le hlt (Nat.le_trans hle₁ hle₀))

/-- What the entries of a changeset use up: the lines, and at last the changeset. -/
def stock (r : Reader) : Nat := r.lines.length + if r.changeset.isSome then 1 else 0

/-- Every entry takes from the stock: a line, or the changeset if it is the last. -/
theorem stock_nextInChangeset {r r' : Reader} {e : Entry}
    (h : on r nextInChangeset = (.ok (some e), r')) : stock r' < stock r := by
  unfold nextInChangeset at h
  rw [on_get_bind] at h
  split at h
  · cases h
  next c hc =>
  obtain ⟨⟨top, found⟩, r₁, h₁, h⟩ := on_bind_eq_ok h
  obtain ⟨⟨payload, stop⟩, r₂, h₂, h⟩ := on_bind_eq_ok h
  rcases hu : untilEmpty r.lines with ⟨top', found', rest⟩
  rw [on_head r hu] at h₁
  obtain ⟨-, rfl⟩ := Prod.mk.inj h₁
  rcases hv : untilDelimiter c rest with ⟨payload', stop', rest'⟩
  rw [on_block _ c hv] at h₂
  obtain ⟨hout, rfl⟩ := Prod.mk.inj h₂
  split at hout
  · cases hout
  cases hout
  have hle := (length_untilEmpty hu).1
  obtain ⟨hle', hlt'⟩ := length_untilDelimiter hv
  have hstock : stock r = r.lines.length + 1 := by rw [stock, hc]; rfl
  dsimp only at h
  split at h
  · -- The last entry: whatever is skipped after it, the changeset is gone.
    rw [on_modify_bind] at h
    obtain ⟨_, r₃, h₃, h⟩ := on_bind_eq_ok h
    cases h
    have hout := (orderly_outerBlock.discard.onward { r with lines := rest', changeset := none }).lines
    have hkeep := changeset_outerBlock { r with lines := rest', changeset := none }
    rw [on_discard] at h₃
    obtain ⟨-, hr₃⟩ := Prod.mk.inj h₃
    rw [on_discard, hr₃] at hout
    rw [hr₃] at hkeep
    change r'.lines.length ≤ rest'.length at hout
    have hstock' : stock r' = r'.lines.length := by rw [stock, hkeep]; rfl
    omega
  · next hs =>
    -- Another entry follows, so a delimiter has been used up.
    cases h
    have hne : stop ≠ .exhausted := by
      rintro rfl
      exact hs rfl
    have hlt := hlt' hne
    have hstock' : stock { r with lines := rest' } = rest'.length + 1 := by rw [stock, hc]; rfl
    omega

end Reading

end OData.Multipart
