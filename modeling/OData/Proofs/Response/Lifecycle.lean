import Mathlib.Data.List.Induction
import OData.Proofs.Response.Steps

/-!
# The life of a response

Whatever is done with a response, only the first access to the body and the first closing make a
difference to what there is to read: a body that nobody has touched is kept in memory by an access
while it is to be buffered, and is gone after any other access and after closing
(`Response.state_run_read`, `Response.close_untouched`). Once it is kept or gone it stays so, by
induction over the steps (`Response.run_keeps`).

**So a body is pulled at most once, is seen the same by every reading or by the first one alone, and
closing runs the handlers that are there by then, once** (`Response.life_cycle`).
-/

set_option autoImplicit false

namespace OData

namespace Response

/-! ## Runs -/

section

variable {ρ : Type} (schema : Json.Schema ρ) {x : Stage}

def run (steps : List (Step ρ)) (x : Stage) : Stage := steps.foldl (Step.after schema) x

theorem run_append (before steps : List (Step ρ)) (x : Stage) :
    run schema (before ++ steps) x = run schema steps (run schema before x) :=
  List.foldl_append

/-- What every step keeps of the response, a run keeps. -/
theorem run_keeps {P : Response → Prop} (step : ∀ r (s : Step ρ), P r → P (s.becomes r))
    (he : x.1.hasEntity = true) (h : P x.1) (steps : List (Step ρ)) :
    P (run schema steps x).1 := by
  induction steps generalizing x with
  | nil => exact h
  | cons s steps ih =>
    obtain ⟨n, -, hafter, -⟩ := s.after_eq schema he
    have hbecomes : (s.after schema x).1 = s.becomes x.1 := by rw [hafter]
    have he' : (s.becomes x.1).core.hasEntity = true := by
      rw [s.core_becomes]
      exact he
    refine ih (x := s.after schema x) ?_ ?_
    · rw [hbecomes]
      exact he'
    · rw [hbecomes]
      exact step _ s h

theorem core_run (he : x.1.hasEntity = true) (steps : List (Step ρ)) :
    (run schema steps x).1.core = x.1.core :=
  run_keeps (P := fun r => r.core = x.1.core) schema
    (fun r s h => (s.core_becomes r).trans h) he rfl steps

/-- The last step of a run is one on what the others have left. -/
theorem run_snoc (he : x.1.hasEntity = true) (steps : List (Step ρ)) (s : Step ρ) :
    ∃ n ≤ (run schema steps x).1.body.onWire,
      run schema (steps ++ [s]) x = (s.becomes (run schema steps x).1,
        ((run schema steps x).2.pulling n).record (s.tells (run schema steps x).1)) ∧
      (0 < n → (s.becomes (run schema steps x).1).body.onWire = 0) ∧
      (s.touches x.1 = false → n = 0) := by
  have hcore : (run schema steps x).1.core = x.1.core := core_run schema he steps
  have he' : (run schema steps x).1.core.hasEntity = true := by
    rw [hcore]
    exact he
  obtain ⟨n, hn, hafter, hpos, htouch⟩ := s.after_eq schema he'
  rw [s.touches_congr hcore] at htouch
  exact ⟨n, hn, (run_append schema steps [s] x).trans hafter, hpos, htouch⟩

/-- A run pulls no more than there is, and leaves nothing behind if it pulls anything. -/
theorem traffic_run (he : x.1.hasEntity = true) (steps : List (Step ρ)) :
    x.2.traffic ≤ (run schema steps x).2.traffic ∧
      (run schema steps x).2.traffic + (run schema steps x).1.body.onWire ≤
        x.2.traffic + x.1.body.onWire ∧
      (x.2.traffic < (run schema steps x).2.traffic →
        (run schema steps x).1.body.onWire = 0) := by
  induction steps using List.reverseRecOn with
  | nil => exact ⟨Nat.le_refl _, Nat.le_refl _, fun h => absurd h (Nat.lt_irrefl _)⟩
  | append_singleton steps s ih =>
    obtain ⟨hmono, hbound, hrest⟩ := ih
    obtain ⟨n, hn, hstep, hpos, -⟩ := run_snoc schema he steps s
    have hle := s.onWire_becomes_le (run schema steps x).1
    rw [hstep]
    simp only [Journal.record, Journal.pulling]
    by_cases hn0 : 0 < n
    · have hzero := hpos hn0
      omega
    · omega

/-- While nobody touches the body, nothing is pulled, and whether it is to be buffered is as it was
unless someone has turned that off. -/
theorem untouched_run {source : Source} (he : x.1.hasEntity = true)
    (h : x.1.body.state = .pending (some source)) {steps : List (Step ρ)}
    (ht : ∀ s ∈ steps, s.touches x.1 = false) :
    (run schema steps x).1.body.state = .pending (some source) ∧
      (run schema steps x).1.closed = x.1.closed ∧
      (run schema steps x).2.traffic = x.2.traffic ∧
      ((run schema steps x).1.body.buffering = true ↔
        x.1.body.buffering = true ∧ .disableBuffering ∉ steps) := by
  induction steps using List.reverseRecOn with
  | nil => exact ⟨h, rfl, rfl, fun hb => ⟨hb, List.not_mem_nil⟩, fun hb => hb.1⟩
  | append_singleton steps s ih =>
    obtain ⟨hstate, hclosed, htraffic, hbuffering⟩ :=
      ih fun t ht' => ht t (List.mem_append_left _ ht')
    have hs : s.touches x.1 = false := ht s (List.mem_append_right _ (List.mem_singleton_self s))
    obtain ⟨n, -, hstep, -, hn⟩ := run_snoc schema he steps s
    obtain ⟨hstate', hclosed', hbuffering'⟩ := s.untouched_becomes hstate (by
      rw [s.touches_congr (core_run schema he steps)]
      exact hs)
    rw [hstep, hn hs]
    refine ⟨hstate', hclosed'.trans hclosed, htraffic, ?_⟩
    rw [hbuffering', hbuffering, List.mem_append, List.mem_singleton, not_or, and_assoc]

/-- Before the first closing, handlers are registered and none is run. -/
theorem open_run (he : x.1.hasEntity = true) {steps : List (Step ρ)} (h : .close ∉ steps) :
    (run schema steps x).1.closed = x.1.closed ∧
      (run schema steps x).1.handlers = x.1.handlers ++ Step.registered steps ∧
      (run schema steps x).2.closings = x.2.closings := by
  induction steps using List.reverseRecOn with
  | nil => exact ⟨rfl, (List.append_nil _).symm, rfl⟩
  | append_singleton steps s ih =>
    obtain ⟨hclosed, hhandlers, hclosings⟩ := ih fun hs => h (List.mem_append_left _ hs)
    obtain ⟨n, -, hstep, -⟩ := run_snoc schema he steps s
    obtain ⟨hclosed', hhandlers', htells⟩ := s.becomes_of_ne_close (run schema steps x).1 (by
      intro hs
      exact h (List.mem_append_right _ (List.mem_singleton.mpr hs)))
    rw [hstep]
    refine ⟨hclosed'.trans hclosed, ?_, ?_⟩
    · rw [hhandlers', hhandlers, List.append_assoc, Step.registered, Step.registered,
        ← List.filterMap_append]
      rfl
    · rw [Journal.closings_record, htells, List.append_nil]
      exact hclosings

/-- After it, none is run again. -/
theorem closed_run (he : x.1.hasEntity = true) (h : x.1.closed = true) (steps : List (Step ρ)) :
    (run schema steps x).1.closed = true ∧
      (run schema steps x).2.closings = x.2.closings := by
  induction steps using List.reverseRecOn with
  | nil => exact ⟨h, rfl⟩
  | append_singleton steps s ih =>
    obtain ⟨hclosed, hclosings⟩ := ih
    obtain ⟨n, -, hstep, -⟩ := run_snoc schema he steps s
    obtain ⟨hclosed', htells⟩ := s.becomes_of_closed hclosed
    rw [hstep]
    refine ⟨hclosed', ?_⟩
    rw [Journal.closings_record, htells, List.append_nil]
    exact hclosings

end

/-! ## The life cycle -/

namespace Reading

variable {ρ : Type} (schema : Json.Schema ρ) {r r' : Response}

/-- What comes of a reading at some stage. -/
def outcome (x : Stage) (d : Reading ρ) : d.Result := (Visit.on x.1 x.2 (d.visit schema)).1.1

/-- What comes of a reading of this content. -/
def seen (r : Response) (content : List UInt8) (d : Reading ρ) : d.Result :=
  d.outcome schema (r.inMemory content, .empty)

theorem seen_bytes (r : Response) (content : List UInt8) :
    (bytes : Reading ρ).seen schema r content = .ok content :=
  Access.on_bytes_of_gives (r.holds_inMemory content).gives .empty

theorem outcome_of_gives (he : r.hasEntity = true) (hr : r'.core = r.core)
    {content : List UInt8} (h : r'.body.Gives content) (d : Reading ρ) (j : Journal) :
    d.outcome schema (r', j) = d.seen schema r content := by
  have hmemory : (r.inMemory content).core = r.core := rfl
  cases hd : d.accesses r.core with
  | true =>
    exact (readsOnce schema (c := r.core) he d hd).on_eq hr hmemory h
      (r.holds_inMemory content).gives j .empty
  | false =>
    obtain ⟨result, hstill⟩ := still schema (c := r.core) d hd
    rw [outcome, seen, outcome, hstill r' j hr, hstill _ .empty hmemory]

theorem outcome_of_gone (he : r.hasEntity = true) (hr : r'.core = r.core)
    (h : r'.body.state = .consumed) {d : Reading ρ} (hd : d.accesses r = true) (j : Journal) :
    d.outcome schema (r', j) =
      d.refused r ((Failure.unreadable .alreadyConsumed).atRequest r.locus) := by
  have hoffer : r'.body.offer = .error .alreadyConsumed := by
    unfold Body.offer
    rw [h]
  have hrefused : d.refused r.core = d.refused r := by cases d <;> rfl
  have hcore : d.accesses r.core = true := (d.accesses_congr rfl).trans hd
  rw [← hrefused]
  exact (readsOnce schema (c := r.core) he d hcore).on_refused hr hoffer j

end Reading

section

variable {ρ : Type} (schema : Json.Schema ρ) {x : Stage}

/-- No step pulls anything after another one. -/
theorem traffic_snoc (he : x.1.hasEntity = true) (before : List (Step ρ)) (s : Step ρ) :
    (run schema before x).2.traffic ≤ (run schema (before ++ [s]) x).2.traffic ∧
      ((run schema before x).2.traffic < (run schema (before ++ [s]) x).2.traffic →
        (run schema before x).2.traffic = x.2.traffic) := by
  obtain ⟨n, hn, hstep, -⟩ := run_snoc schema he before s
  obtain ⟨hmono, -, hrest⟩ := traffic_run schema he before
  have htraffic : (run schema (before ++ [s]) x).2.traffic = (run schema before x).2.traffic + n := by
    rw [hstep]
    rfl
  omega

/-- The first closing runs the handlers that are there, and none is run again. -/
theorem closings_run_close (he : x.1.hasEntity = true) (hopen : x.1.closed = false)
    {pre : List (Step ρ)} (hpre : .close ∉ pre) (post : List (Step ρ)) :
    (run schema (pre ++ .close :: post) x).2.closings =
      x.2.closings ++ (x.1.handlers ++ Step.registered pre) := by
  obtain ⟨hclosed, hhandlers, hclosings⟩ := open_run schema he hpre
  have hopen' : ¬ (run schema pre x).1.closed = true := by
    rw [hclosed, hopen]
    exact Bool.false_ne_true
  obtain ⟨n, -, hstep, -⟩ := run_snoc schema he pre .close
  have he' : (run schema (pre ++ [.close]) x).1.core.hasEntity = true := by
    rw [core_run schema he]
    exact he
  have hshut : (run schema (pre ++ [.close]) x).1.closed = true := by
    rw [hstep, Step.becomes, if_neg hopen']
  rw [List.append_cons, run_append, (closed_run schema he' hshut post).2, hstep,
    Journal.closings_record, Step.tells, if_neg hopen', Journal.closedIn_map_closed, hhandlers]
  exact congrArg (· ++ _) hclosings

end

/-- How the content of a response is handed out that came with this stream, in the course of any
steps. -/
structure HandsOut {ρ : Type} (schema : Json.Schema ρ) (r : Response) (source : Source)
    (j : Journal) : Prop where
  /-- To see it is to have all of it. -/
  whole : (Reading.bytes : Reading ρ).seen schema r source.rest = .ok source.rest
  /-- All steps together pull no more than there is, and none pulls anything after another one. -/
  pulled : ∀ (before : List (Step ρ)) (s : Step ρ),
    (run schema before (r, j)).2.traffic ≤ (run schema (before ++ [s]) (r, j)).2.traffic ∧
    (run schema (before ++ [s]) (r, j)).2.traffic ≤ j.traffic + source.rest.length ∧
    ((run schema before (r, j)).2.traffic < (run schema (before ++ [s]) (r, j)).2.traffic →
      (run schema before (r, j)).2.traffic = j.traffic)
  /-- If it is to be buffered at the first access, every reading sees it, wherever it stands. -/
  kept : ∀ (pre post before : List (Step ρ)) (d d' : Reading ρ),
    (∀ s ∈ pre, s.touches r = false) → d.accesses r = true → r.body.buffering = true →
    .disableBuffering ∉ pre → before <+: pre ++ .read d :: post →
    d'.outcome schema (run schema before (r, j)) = d'.seen schema r source.rest
  /-- If not, the first access sees it and no other one does. -/
  spent : ∀ (pre post : List (Step ρ)) (d d' : Reading ρ),
    (∀ s ∈ pre, s.touches r = false) → d.accesses r = true →
    r.body.buffering = false ∨ .disableBuffering ∈ pre →
    d.outcome schema (run schema pre (r, j)) = d.seen schema r source.rest ∧
    (d'.accesses r = true → d'.outcome schema (run schema (pre ++ .read d :: post) (r, j)) =
      d'.refused r ((Failure.unreadable .alreadyConsumed).atRequest r.locus))
  /-- If closing comes first, it pulls everything and leaves nothing to see. -/
  drained : ∀ (pre post : List (Step ρ)) (d' : Reading ρ),
    (∀ s ∈ pre, s.touches r = false) →
    (Access.on (run schema pre (r, j)).1 (run schema pre (r, j)).2 Access.close).1.1 = .ok ⟨⟩ ∧
    (run schema (pre ++ [.close]) (r, j)).2.traffic =
      j.traffic + source.traffic source.rest.length ∧
    (d'.accesses r = true → d'.outcome schema (run schema (pre ++ .close :: post) (r, j)) =
      d'.refused r ((Failure.unreadable .alreadyConsumed).atRequest r.locus))

section

variable {ρ : Type} (schema : Json.Schema ρ) {r : Response} {source : Source} (j : Journal)
  {pre : List (Step ρ)}

/-- What is left by the first step that touches the body is left for good. -/
theorem state_run_of_touch {P : Body.State → Prop} (he : r.hasEntity = true) {s : Step ρ}
    (h : P (s.becomes (run schema pre (r, j)).1).body.state)
    (hP : ∀ r (s : Step ρ), P r.body.state → P (s.becomes r).body.state) (post : List (Step ρ)) :
    P (run schema (pre ++ s :: post) (r, j)).1.body.state := by
  obtain ⟨n, -, hstep, -⟩ := run_snoc schema (x := (r, j)) he pre s
  rw [List.append_cons, run_append]
  refine run_keeps (P := fun r => P r.body.state) schema hP ?_ ?_ post
  · have hcore := core_run schema (x := (r, j)) he (pre ++ [s])
    have he' : (run schema (pre ++ [s]) (r, j)).1.core.hasEntity = true := by
      rw [hcore]
      exact he
    exact he'
  · rw [hstep]
    exact h

variable (he : r.hasEntity = true) (hstate : r.body.state = .pending (some source))
  (hsource : source.breaksOff = false) (hpre : ∀ s ∈ pre, s.touches r = false)

include he hstate hsource hpre

theorem gives_run_untouched : (run schema pre (r, j)).1.body.Gives source.rest := by
  obtain ⟨hpending, -⟩ := untouched_run schema (x := (r, j)) he hstate hpre
  exact Body.gives_of_pending hpending hsource

/-- The first access decides whether the content is kept. -/
theorem state_run_read {d : Reading ρ} (hd : d.accesses r = true) (post : List (Step ρ)) :
    (run schema (pre ++ .read d :: post) (r, j)).1.body.state =
      if (run schema pre (r, j)).1.body.buffering = true then .buffered source.rest
      else .consumed := by
  obtain ⟨hpending, -⟩ := untouched_run schema (x := (r, j)) he hstate hpre
  have hread : d.accesses (run schema pre (r, j)).1 = true :=
    (d.accesses_congr (core_run schema (x := (r, j)) he pre)).trans hd
  have htouch : ((Step.read d).becomes (run schema pre (r, j)).1).body.state =
      if (run schema pre (r, j)).1.body.buffering = true then .buffered source.rest
      else .consumed := by
    rw [Step.becomes, if_pos hread]
    exact Body.state_accessed hpending hsource
  split
  · next hb =>
    rw [if_pos hb] at htouch
    exact state_run_of_touch (P := (· = .buffered source.rest)) schema j he htouch
      (fun r s => s.kept_becomes r) post
  · next hb =>
    rw [if_neg hb] at htouch
    exact state_run_of_touch (P := (· = .consumed)) schema j he htouch
      (fun r s => s.gone_becomes r) post

/-- A reading gives the same wherever it stands, if the content is kept by the first access. -/
theorem outcome_of_buffering (hb : r.body.buffering = true) (hn : .disableBuffering ∉ pre)
    {d : Reading ρ} (hd : d.accesses r = true) {before post : List (Step ρ)}
    (hbefore : before <+: pre ++ .read d :: post) (d' : Reading ρ) :
    d'.outcome schema (run schema before (r, j)) = d'.seen schema r source.rest := by
  have hgives : (run schema before (r, j)).1.body.Gives source.rest := by
    obtain ⟨rest, hrest⟩ := hbefore
    rcases List.append_eq_append_iff.mp hrest with ⟨pre', rfl, -⟩ | ⟨cs, rfl, hcs⟩
    · exact gives_run_untouched schema j he hstate hsource
        fun s hs => hpre s (List.mem_append_left _ hs)
    · cases cs with
      | nil =>
        rw [List.append_nil]
        exact gives_run_untouched schema j he hstate hsource hpre
      | cons s post' =>
        obtain ⟨rfl, -⟩ := List.cons.inj hcs
        obtain ⟨-, -, -, hbuffering⟩ := untouched_run schema (x := (r, j)) he hstate hpre
        have hkept := state_run_read schema j he hstate hsource hpre hd post'
        rw [if_pos (hbuffering.mpr ⟨hb, hn⟩)] at hkept
        exact Body.gives_of_buffered hkept
  exact d'.outcome_of_gives schema he (core_run schema (x := (r, j)) he before) hgives _

/-- Without buffering, the first access is the only one. -/
theorem outcome_of_not_buffering (hb : r.body.buffering = false ∨ .disableBuffering ∈ pre)
    {d : Reading ρ} (hd : d.accesses r = true) (post : List (Step ρ)) {d' : Reading ρ}
    (hd' : d'.accesses r = true) :
    d'.outcome schema (run schema (pre ++ .read d :: post) (r, j)) =
      d'.refused r ((Failure.unreadable .alreadyConsumed).atRequest r.locus) := by
  obtain ⟨-, -, -, hbuffering⟩ := untouched_run schema (x := (r, j)) he hstate hpre
  have hoff : ¬ (run schema pre (r, j)).1.body.buffering = true := by
    intro h
    obtain ⟨hon, hn⟩ := hbuffering.mp h
    rcases hb with hb | hb
    · exact Bool.false_ne_true (hb.symm.trans hon)
    · exact hn hb
  have hgone := state_run_read schema j he hstate hsource hpre hd post
  rw [if_neg hoff] at hgone
  exact Reading.outcome_of_gone schema he (core_run schema (x := (r, j)) he _) hgone hd' _

omit hsource in
/-- Closing an untouched response pulls what there is, and no access succeeds after that. -/
theorem outcome_of_closing (hopen : r.closed = false) (post : List (Step ρ)) {d' : Reading ρ}
    (hd' : d'.accesses r = true) :
    d'.outcome schema (run schema (pre ++ .close :: post) (r, j)) =
      d'.refused r ((Failure.unreadable .alreadyConsumed).atRequest r.locus) := by
  obtain ⟨hpending, hclosed, -⟩ := untouched_run schema (x := (r, j)) he hstate hpre
  have hopen' : ¬ (run schema pre (r, j)).1.closed = true := by
    rw [hclosed, hopen]
    exact Bool.false_ne_true
  have htouch : ((Step.close : Step ρ).becomes (run schema pre (r, j)).1).body.state =
      .consumed := by
    rw [Step.becomes, if_neg hopen']
    exact Body.state_drained hpending
  have hgone := state_run_of_touch (P := (· = .consumed)) schema j he htouch
    (fun r s => s.gone_becomes r) post
  exact Reading.outcome_of_gone schema he (core_run schema (x := (r, j)) he _) hgone hd' _

theorem close_untouched (hopen : r.closed = false) :
    (Access.on (run schema pre (r, j)).1 (run schema pre (r, j)).2 Access.close).1.1 = .ok ⟨⟩ ∧
      (run schema (pre ++ [.close]) (r, j)).2.traffic =
        j.traffic + source.traffic source.rest.length := by
  obtain ⟨hpending, hclosed, htraffic, -⟩ := untouched_run schema (x := (r, j)) he hstate hpre
  obtain ⟨broke, hclose, hbroke⟩ := on_close_of_open (hclosed.trans hopen) (run schema pre (r, j)).2
  rw [run_append]
  show _ ∧ (Access.on _ _ Access.close).2.traffic = _
  obtain rfl := (hbroke source hpending).trans hsource
  rw [hclose]
  refine ⟨rfl, ?_⟩
  show (run schema pre (r, j)).2.traffic + (run schema pre (r, j)).1.body.onWire = _
  rw [htraffic, Body.onWire, hpending]

end

/-- **Whatever is done with a response that has an entity and is still open**: its content is handed
out once or kept, unless the stream breaks off; and closing runs the handlers that have been
registered by then, in their order, while later ones are not run. -/
theorem life_cycle {ρ : Type} (schema : Json.Schema ρ) {r : Response} (he : r.hasEntity = true)
    (hopen : r.closed = false) (j : Journal) :
    (∀ source, r.body.state = .pending (some source) → source.breaksOff = false →
      HandsOut schema r source j) ∧
    ∀ pre post : List (Step ρ), .close ∉ pre →
      (run schema pre (r, j)).2.closings = j.closings ∧
      (run schema (pre ++ .close :: post) (r, j)).2.closings =
        j.closings ++ (r.handlers ++ Step.registered pre) := by
  constructor
  · intro source hstate hsource
    refine ⟨Reading.seen_bytes schema r source.rest, ?_, ?_, ?_, ?_⟩
    · intro before s
      obtain ⟨hmono, honce⟩ := traffic_snoc schema (x := (r, j)) he before s
      obtain ⟨-, hbound, -⟩ := traffic_run schema (x := (r, j)) he (before ++ [s])
      have hwire : r.body.onWire ≤ source.rest.length := by
        rw [Body.onWire, hstate]
        exact source.traffic_le _
      exact ⟨hmono, Nat.le_trans (Nat.le_of_add_right_le hbound)
        (Nat.add_le_add_left hwire _), honce⟩
    · intro pre post before d d' hpre hd hb hn hbefore
      exact outcome_of_buffering schema j he hstate hsource hpre hb hn hd hbefore d'
    · intro pre post d d' hpre hd hb
      refine ⟨?_, outcome_of_not_buffering schema j he hstate hsource hpre hb hd post⟩
      exact d.outcome_of_gives schema he (core_run schema (x := (r, j)) he pre)
        (gives_run_untouched schema j he hstate hsource hpre) _
    · intro pre post d' hpre
      obtain ⟨hclose, htraffic⟩ := close_untouched schema j he hstate hsource hpre hopen
      exact ⟨hclose, htraffic, outcome_of_closing schema j he hstate hpre hopen post⟩
  · intro pre post hpre
    obtain ⟨-, -, hclosings⟩ := open_run schema (x := (r, j)) he hpre
    exact ⟨hclosings, closings_run_close schema (x := (r, j)) he hopen hpre post⟩

def freshContent : List UInt8 := Text.Utf8.ofString "\x7b\"value\":1\x7d"

def freshReply (buffering : Bool) : Response :=
  let r := Response.of none ⟨.get, "/svc/People", .v4, none⟩
    (.json ⟨freshContent, false, true⟩) false
  { r with body := { r.body with buffering } }

/-- A reading, closing, and what has no effect after them. -/
def closedTwice : Stage :=
  run Json.noRecords [.onClose "a", .read .nextLink, .disableBuffering, .close, .onClose "b", .close]
    (freshReply true, .empty)

/-- Buffered content is there after closing, other content is gone after the first access, and
closing at once leaves nothing; the handler that comes too late is not run. -/
theorem life_cycle_freshReply :
    Reading.bytes.outcome Json.noRecords closedTwice = .ok freshContent ∧
    closedTwice.2.closings = ["a"] ∧
    Reading.bytes.outcome Json.noRecords
        (run Json.noRecords [.read .bytes] (freshReply false, .empty)) =
      .error ((Failure.unreadable .alreadyConsumed).atRequest (freshReply false).locus) ∧
    (run Json.noRecords [.close] (freshReply true, .empty)).2.traffic = 11 := by
  obtain ⟨hout, hclose⟩ := life_cycle Json.noRecords (r := freshReply true) rfl rfl .empty
  obtain ⟨hout', -⟩ := life_cycle Json.noRecords (r := freshReply false) rfl rfl .empty
  have hkept := hout _ rfl rfl
  have hspent := hout' _ rfl rfl
  refine ⟨?_, ?_, ?_, ?_⟩
  · refine (hkept.kept [.onClose "a"] [.disableBuffering, .close, .onClose "b", .close] _
      .nextLink .bytes ?_ rfl rfl ?_ (List.prefix_refl _)).trans hkept.whole
    · intro s hs
      cases List.mem_singleton.mp hs
      rfl
    · intro h
      cases List.mem_singleton.mp h
  · exact (hclose [.onClose "a", .read .nextLink, .disableBuffering] [.onClose "b", .close]
      (fun h => by simp at h)).2
  · exact (hspent.spent [] [] .bytes .bytes (fun _ h => nomatch h) rfl (.inl rfl)).2 rfl
  · exact (hkept.drained [] [] .bytes (fun _ h => nomatch h)).2.1

end Response

end OData
