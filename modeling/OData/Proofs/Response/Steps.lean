import OData.Proofs.Response.Reading

/-!
# Steps on a response

A response is read, told not to buffer, and closed, in any order (`Response.Step`). **What a step
makes of the response and what it tells others follows from the response alone** (`Step.after_eq`):
a reading changes the body as one access does, or leaves it alone (`Reading.on_visit`), and only the
first closing does anything.

Of the body, a step keeps what is in memory in memory and what is gone gone; until it is touched, it
only can be told not to be buffered (`kept_becomes`, `gone_becomes`, `untouched_becomes`).
-/

set_option autoImplicit false

namespace OData

namespace Journal

/-- The handlers that have been run according to some events. -/
def closedIn (es : List Event) : List String :=
  es.filterMap fun
    | .closed label => some label
    | _ => none

/-- The handlers that have been run so far. -/
def closings (j : Journal) : List String := closedIn j.events

theorem closings_record (j : Journal) (es : List Event) :
    (j.record es).closings = j.closings ++ closedIn es := List.filterMap_append

theorem closedIn_map_closed (labels : List String) : closedIn (labels.map .closed) = labels := by
  unfold closedIn
  rw [List.filterMap_map]
  exact List.filterMap_some

theorem record_nil (j : Journal) : j.record [] = j := by
  unfold record
  rw [List.append_nil]

end Journal

/-- The body after closing. -/
def Body.drained (b : Body) : Body :=
  match b.state with
  | .pending (some _) => { b with state := .consumed }
  | _ => b

theorem Body.drain_eq (b : Body) (j : Journal) : ∃ broke,
    b.drain j = (broke, b.drained, j.pulling b.onWire) ∧
      ∀ s, b.state = .pending (some s) → broke = s.breaksOff := by
  obtain ⟨buffering, state⟩ := b
  rcases state with (_ | s) | bytes | _
  · exact ⟨false, rfl, fun _ h => by cases h⟩
  · exact ⟨s.breaksOff, rfl, fun _ h => by cases h; rfl⟩
  · exact ⟨false, rfl, fun _ h => by cases h⟩
  · exact ⟨false, rfl, fun _ h => by cases h⟩

theorem Source.traffic_le (s : Source) (n : Nat) : s.traffic n ≤ n := by
  unfold traffic
  split
  · exact Nat.le_refl n
  · exact Nat.zero_le n

theorem Body.gives_of_pending {b : Body} {s : Source} (h : b.state = .pending (some s))
    (hs : s.breaksOff = false) : b.Gives s.rest := by
  obtain ⟨buffering, state⟩ := b
  obtain ⟨rest, breaksOff, metered⟩ := s
  obtain rfl : state = .pending (some ⟨rest, breaksOff, metered⟩) := h
  obtain rfl : breaksOff = false := hs
  exact gives_pending buffering metered rest

theorem Body.gives_of_buffered {b : Body} {content : List UInt8}
    (h : b.state = .buffered content) : b.Gives content := by
  refine ⟨false, ?_⟩
  unfold offer
  rw [h]
  rfl

theorem Body.state_accessed {b : Body} {s : Source} (h : b.state = .pending (some s))
    (hs : s.breaksOff = false) :
    b.accessed.state = if b.buffering = true then .buffered s.rest else .consumed := by
  unfold accessed
  rw [h]
  dsimp only
  rw [hs]
  cases b.buffering <;> rfl

theorem Body.state_drained {b : Body} {s : Source} (h : b.state = .pending (some s)) :
    b.drained.state = .consumed := by
  unfold drained
  rw [h]

namespace Response

/-! ## Readings -/

/-- A way of reading a response. The check of its health is one, as a failing status is reported
with the content. -/
inductive Reading (ρ : Type) where
  | bytes
  | text
  | object
  | entityAs (shape : Json.Shape ρ)
  | primitiveAs (shape : Json.Shape ρ)
  | collection
  | listAs (shape : Json.Shape ρ)
  | elements (shape : Json.Shape ρ)
  | inlineCount
  | nextLink
  | deltaLink
  | healthy

namespace Reading

variable {ρ : Type}

def Result : Reading ρ → Type
  | bytes => Except Failure (List UInt8)
  | text => Except Failure String
  | object | entityAs _ | primitiveAs _ => Except Failure Json
  | collection | listAs _ => Except Failure (List Json)
  | elements _ => List Json × Except Failure Nat
  | inlineCount => Except Failure Nat
  | nextLink | deltaLink => Except Failure (Option String)
  | healthy => Except Failure Unit

def visit (schema : Json.Schema ρ) : (d : Reading ρ) → Visit d.Result
  | bytes => Access.bytes.run
  | text => Access.text.run
  | object => Access.object.run
  | entityAs shape => (Access.entityAs schema shape).run
  | primitiveAs shape => (Access.primitiveAs schema shape).run
  | collection => Access.collection.run
  | listAs shape => (Access.listAs schema shape).run
  | elements shape => Visit.elements schema shape
  | inlineCount => Access.inlineCount.run
  | nextLink => Access.nextLink.run
  | deltaLink => Access.deltaLink.run
  | healthy => Access.healthy.run

/-- Whether the body is accessed: not for a link that the protocol does not have, nor for the health
of a status that is no failure. -/
def accesses (r : Response) : Reading ρ → Bool
  | deltaLink => r.protocol.deltaLinkPlace?.isSome
  | healthy => 400 ≤ r.status
  | _ => true

/-- What comes of the reading if the body cannot be had. A failing status is reported without it. -/
def refused (r : Response) : (d : Reading ρ) → Failure → d.Result
  | bytes, f | text, f | object, f | entityAs _, f | primitiveAs _, f | collection, f | listAs _, f
  | inlineCount, f | nextLink, f | deltaLink, f => .error f
  | elements _, f => ([], .error f)
  | healthy, _ => .error ((r.unhealthy none).atRequest r.locus)

variable (schema : Json.Schema ρ) {c : Response}

theorem readsOnce (he : c.hasEntity = true) (d : Reading ρ) (h : d.accesses c = true) :
    Visit.ReadsOnce c (d.refused c) (d.visit schema) := by
  cases d with
  | bytes => exact Access.readsOnce_bytes
  | text => exact Access.readsOnce_text
  | object => exact Access.readsOnce_object he
  | entityAs shape => exact Access.readsOnce_entityAs schema shape he
  | primitiveAs shape => exact Access.readsOnce_primitiveAs schema shape he
  | collection => exact Access.readsOnce_collection he
  | listAs shape => exact Access.readsOnce_listAs schema shape he
  | elements shape => exact Access.readsOnce_elements schema shape he
  | inlineCount => exact Access.readsOnce_inlineCount he
  | nextLink => exact Access.readsOnce_nextLink he
  | deltaLink => exact Access.readsOnce_deltaLink he h
  | healthy => exact Access.readsOnce_healthy he (of_decide_eq_true h)

/-- A reading that leaves the body alone comes to the same at any time. -/
theorem still (d : Reading ρ) (h : d.accesses c = false) :
    ∃ result, ∀ r j, r.core = c → Visit.on r j (d.visit schema) = ((result, r), j) := by
  cases d with
  | deltaLink =>
    refine ⟨.ok none, ?_⟩
    intro r j hr
    subst hr
    have hnone : r.protocol.deltaLinkPlace? = none := Option.not_isSome_iff_eq_none.mp (by
      rw [Bool.not_eq_true]
      exact h)
    show Access.on r j Access.deltaLink = _
    unfold Access.deltaLink
    rw [Access.on_get_bind, hnone]
    rfl
  | healthy =>
    refine ⟨.ok (), ?_⟩
    intro r j hr
    subst hr
    exact Access.on_healthy_of_lt (r := r) (Nat.not_le.mp (of_decide_eq_false h)) j
  | _ => cases h

/-- A reading changes the body as an access does, or not at all, and pulls no more than there is. -/
theorem on_visit {r : Response} (he : r.hasEntity = true) (d : Reading ρ) (j : Journal) :
    ∃ n ≤ r.body.onWire,
      (Visit.on r j (d.visit schema)).1.2 = (if d.accesses r then r.accessed else r) ∧
      (Visit.on r j (d.visit schema)).2 = j.pulling n ∧ (d.accesses r = false → n = 0) := by
  cases h : d.accesses r with
  | true =>
    obtain ⟨n, hn, hr, hj⟩ := (readsOnce schema (c := r.core) he d h).on_after rfl j
    refine ⟨n, hn, hr, hj, ?_⟩
    intro h
    cases h
  | false =>
    obtain ⟨result, hstill⟩ := still schema (c := r.core) d h
    rw [hstill r j rfl]
    exact ⟨0, Nat.zero_le _, rfl, rfl, fun _ => rfl⟩

end Reading

/-! ## Steps -/

/-- What may be done with a response, apart from asking for the next page. -/
inductive Step (ρ : Type) where
  | disableBuffering
  | read (d : Reading ρ)
  | onClose (label : String)
  | close

/-- A response as some steps have left it, and what others have seen of them. -/
abbrev Stage := Response × Journal

def Stage.leftBy {α : Type} (x : Stage) (v : Visit α) : Stage :=
  ((Visit.on x.1 x.2 v).1.2, (Visit.on x.1 x.2 v).2)

namespace Step

variable {ρ : Type}

def after (schema : Json.Schema ρ) (x : Stage) : Step ρ → Stage
  | disableBuffering => x.leftBy Visit.disableBuffering
  | read d => x.leftBy (d.visit schema)
  | onClose label => x.leftBy (Visit.onClose label)
  | close => x.leftBy Access.close.run

/-- What a step makes of a response. -/
def becomes (r : Response) : Step ρ → Response
  | disableBuffering => { r with body := r.body.withoutBuffering?.getD r.body }
  | read d => if d.accesses r then r.accessed else r
  | onClose label => { r with handlers := r.handlers ++ [label] }
  | close =>
    if r.closed then r else { r with body := r.body.drained, handlers := [], closed := true }

/-- What others are told in a step. -/
def tells (r : Response) : Step ρ → List Event
  | disableBuffering =>
    if r.body.withoutBuffering?.isSome then [] else [.warned .bufferingTooLate]
  | close => if r.closed then [] else r.handlers.map .closed
  | read _ | onClose _ => []

/-- Whether a step makes use of the body. -/
def touches (r : Response) : Step ρ → Bool
  | read d => d.accesses r
  | close => true
  | disableBuffering | onClose _ => false

/-- The handlers that some steps register. -/
def registered (steps : List (Step ρ)) : List String :=
  steps.filterMap fun
    | onClose label => some label
    | _ => none

end Step

theorem on_disableBuffering (r : Response) (j : Journal) :
    Visit.on r j Visit.disableBuffering =
      match r.body.withoutBuffering? with
      | some body => (((), { r with body }), j)
      | none => (((), r), j.warn [.bufferingTooLate]) := by
  obtain ⟨request, locus, status, reason, headers, hasEntity, ⟨buffering, state⟩, online, handlers,
    closed⟩ := r
  cases state <;> rfl

theorem on_close_of_closed {r : Response} (h : r.closed = true) (j : Journal) :
    Access.on r j Access.close = ((.ok ⟨⟩, r), j) := by
  unfold Access.close
  rw [Access.on_get_bind, if_pos h]
  rfl

theorem on_close_of_open {r : Response} (h : r.closed = false) (j : Journal) : ∃ broke,
    Access.on r j Access.close =
      ((if broke then .error ((Failure.connection .draining .broken).atRequest r.locus) else .ok ⟨⟩,
        { r with body := r.body.drained, handlers := [], closed := true }),
        (j.pulling r.body.onWire).record (r.handlers.map .closed)) ∧
      ∀ s, r.body.state = .pending (some s) → broke = s.breaksOff := by
  obtain ⟨broke, hdrain, hbroke⟩ := r.body.drain_eq j
  refine ⟨broke, ?_, hbroke⟩
  unfold Access.close
  rw [Access.on_get_bind, if_neg (by rw [h]; exact Bool.false_ne_true), Access.on_getThe_bind,
    hdrain]
  cases broke <;> rfl

/-- No access leaves anything on the wire. -/
theorem onWire_accessed (b : Body) : b.accessed.onWire = 0 := by
  obtain ⟨buffering, state⟩ := b
  rcases state with (_ | s) | bytes | _
  · rfl
  · unfold Body.accessed
    dsimp only
    split <;> rfl
  · rfl
  · rfl

theorem onWire_drained (b : Body) : b.drained.onWire = 0 := by
  obtain ⟨buffering, state⟩ := b
  rcases state with (_ | s) | bytes | _ <;> rfl

theorem onWire_withoutBuffering (b : Body) :
    (b.withoutBuffering?.getD b).onWire = b.onWire := by
  obtain ⟨buffering, state⟩ := b
  cases state <;> rfl

namespace Step

variable {ρ : Type} (schema : Json.Schema ρ)

theorem after_close_of_closed {r : Response} (h : r.closed = true) (j : Journal) :
    close.after schema (r, j) = (r, j) := by
  have hrun : Visit.on r j Access.close.run = ((.ok ⟨⟩, r), j) := on_close_of_closed h j
  rw [after, Stage.leftBy, hrun]

theorem after_close_of_open {r : Response} (h : r.closed = false) (j : Journal) :
    close.after schema (r, j) =
      ({ r with body := r.body.drained, handlers := [], closed := true },
        (j.pulling r.body.onWire).record (r.handlers.map .closed)) := by
  obtain ⟨broke, hclose, -⟩ := on_close_of_open h j
  have hrun : Visit.on r j Access.close.run = _ := hclose
  rw [after, Stage.leftBy, hrun]

/-- **All that a step does.** It pulls no more than there is, leaves nothing behind if it pulls
anything, and pulls nothing if it does not touch the body. -/
theorem after_eq {x : Stage} (he : x.1.hasEntity = true) (s : Step ρ) :
    ∃ n ≤ x.1.body.onWire,
      s.after schema x = (s.becomes x.1, (x.2.pulling n).record (s.tells x.1)) ∧
      (0 < n → (s.becomes x.1).body.onWire = 0) ∧ (s.touches x.1 = false → n = 0) := by
  obtain ⟨r, j⟩ := x
  cases s with
  | disableBuffering =>
    refine ⟨0, Nat.zero_le _, ?_, fun h => absurd h (Nat.lt_irrefl 0), fun _ => rfl⟩
    rcases hb : r.body.withoutBuffering? with _ | body
    · simp only [after, Stage.leftBy, on_disableBuffering, becomes, tells, hb]
      rfl
    · simp only [after, Stage.leftBy, on_disableBuffering, becomes, tells, hb]
      exact congrArg _ (j.record_nil).symm
  | read d =>
    obtain ⟨n, hn, hr, hj, hstill⟩ := d.on_visit schema he j
    refine ⟨n, hn, ?_, ?_, hstill⟩
    · rw [after, Stage.leftBy, hr, hj, tells, Journal.record_nil]
      rfl
    · intro hpos
      cases ha : d.accesses r with
      | true =>
        rw [becomes, if_pos ha]
        exact onWire_accessed _
      | false => exact absurd (hstill ha) (Nat.pos_iff_ne_zero.mp hpos)
  | onClose label =>
    refine ⟨0, Nat.zero_le _, ?_, fun h => absurd h (Nat.lt_irrefl 0), fun _ => rfl⟩
    exact congrArg _ (j.record_nil).symm
  | close =>
    cases hc : r.closed with
    | true =>
      refine ⟨0, Nat.zero_le _, ?_, fun h => absurd h (Nat.lt_irrefl 0), fun _ => rfl⟩
      rw [after_close_of_closed schema hc, becomes, if_pos hc, tells, if_pos hc,
        Journal.record_nil]
      rfl
    | false =>
      have hopen : ¬ r.closed = true := by rw [hc]; exact Bool.false_ne_true
      refine ⟨r.body.onWire, Nat.le_refl _, ?_, ?_, fun h => nomatch h⟩
      · rw [after_close_of_open schema hc, becomes, if_neg hopen, tells, if_neg hopen]
      · intro _
        rw [becomes, if_neg hopen]
        exact onWire_drained _

end Step

/-! ## What steps leave as it is -/

theorem Reading.accesses_congr {ρ : Type} (d : Reading ρ) {r r' : Response}
    (h : r.core = r'.core) : d.accesses r = d.accesses r' := by
  have hcore : ∀ r : Response, d.accesses r.core = d.accesses r := by
    intro r
    cases d <;> rfl
  rw [← hcore r, h, hcore r']

namespace Step

variable {ρ : Type}

theorem touches_congr (s : Step ρ) {r r' : Response} (h : r.core = r'.core) :
    s.touches r = s.touches r' := by
  cases s with
  | read d => exact d.accesses_congr h
  | _ => rfl

theorem core_becomes (r : Response) (s : Step ρ) : (s.becomes r).core = r.core := by
  cases s with
  | disableBuffering => rfl
  | onClose label => rfl
  | read d =>
    dsimp only [becomes]
    split <;> rfl
  | close =>
    dsimp only [becomes]
    split <;> rfl

/-- What is kept in memory stays there. -/
theorem kept_becomes {content : List UInt8} (r : Response) (s : Step ρ)
    (h : r.body.state = .buffered content) : (s.becomes r).body.state = .buffered content := by
  obtain ⟨request, locus, status, reason, headers, hasEntity, ⟨buffering, state⟩, online, handlers,
    closed⟩ := r
  obtain rfl : state = .buffered content := h
  cases s with
  | disableBuffering => rfl
  | onClose label => rfl
  | read d =>
    dsimp only [becomes]
    split <;> rfl
  | close =>
    dsimp only [becomes]
    split <;> rfl

/-- What is gone does not come back. -/
theorem gone_becomes (r : Response) (s : Step ρ) (h : r.body.state = .consumed) :
    (s.becomes r).body.state = .consumed := by
  obtain ⟨request, locus, status, reason, headers, hasEntity, ⟨buffering, state⟩, online, handlers,
    closed⟩ := r
  obtain rfl : state = .consumed := h
  cases s with
  | disableBuffering => rfl
  | onClose label => rfl
  | read d =>
    dsimp only [becomes]
    split <;> rfl
  | close =>
    dsimp only [becomes]
    split <;> rfl

/-- Until the body is touched, it only can be told not to be buffered. -/
theorem untouched_becomes {r : Response} {source : Source} (s : Step ρ)
    (h : r.body.state = .pending (some source)) (ht : s.touches r = false) :
    (s.becomes r).body.state = .pending (some source) ∧ (s.becomes r).closed = r.closed ∧
      ((s.becomes r).body.buffering = true ↔
        r.body.buffering = true ∧ .disableBuffering ≠ s) := by
  obtain ⟨request, locus, status, reason, headers, hasEntity, ⟨buffering, state⟩, online, handlers,
    closed⟩ := r
  obtain rfl : state = .pending (some source) := h
  cases s with
  | disableBuffering =>
    refine ⟨rfl, rfl, ?_, fun h => absurd rfl h.2⟩
    intro h
    cases h
  | onClose label => exact ⟨rfl, rfl, fun h => ⟨h, fun h => nomatch h⟩, fun h => h.1⟩
  | read d =>
    have hd : ¬ d.accesses _ = true := (Bool.not_eq_true _).mpr ht
    rw [becomes, if_neg hd]
    exact ⟨rfl, rfl, fun h => ⟨h, fun h => nomatch h⟩, fun h => h.1⟩
  | close => cases ht

theorem onWire_becomes_le (r : Response) (s : Step ρ) :
    (s.becomes r).body.onWire ≤ r.body.onWire := by
  cases s with
  | disableBuffering => exact Nat.le_of_eq (onWire_withoutBuffering r.body)
  | onClose label => exact Nat.le_refl _
  | read d =>
    dsimp only [becomes]
    split
    · show r.body.accessed.onWire ≤ _
      rw [onWire_accessed]
      exact Nat.zero_le _
    · exact Nat.le_refl _
  | close =>
    dsimp only [becomes]
    split
    · exact Nat.le_refl _
    · show r.body.drained.onWire ≤ _
      rw [onWire_drained]
      exact Nat.zero_le _

/-- Only closing runs handlers. -/
theorem becomes_of_ne_close (r : Response) (s : Step ρ) (h : .close ≠ s) :
    (s.becomes r).closed = r.closed ∧ (s.becomes r).handlers = r.handlers ++ registered [s] ∧
      Journal.closedIn (s.tells r) = [] := by
  cases s with
  | disableBuffering =>
    refine ⟨rfl, (List.append_nil _).symm, ?_⟩
    dsimp only [tells]
    split <;> rfl
  | read d =>
    have hr : (becomes r (read d)).closed = r.closed ∧
        (becomes r (read d)).handlers = r.handlers := by
      dsimp only [becomes]
      split <;> exact ⟨rfl, rfl⟩
    exact ⟨hr.1, hr.2.trans (List.append_nil _).symm, rfl⟩
  | onClose label => exact ⟨rfl, rfl, rfl⟩
  | close => exact absurd rfl h

/-- Closing once more does nothing. -/
theorem becomes_of_closed {r : Response} (h : r.closed = true) (s : Step ρ) :
    (s.becomes r).closed = true ∧ Journal.closedIn (s.tells r) = [] := by
  by_cases hs : .close = s
  · subst hs
    rw [becomes, if_pos h, tells, if_pos h]
    exact ⟨h, rfl⟩
  · obtain ⟨hclosed, -, htells⟩ := s.becomes_of_ne_close r hs
    exact ⟨hclosed.trans h, htells⟩

end Step

end Response

end OData
