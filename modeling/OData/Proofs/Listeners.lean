import OData.Proofs.Batch.Execution
import OData.Proofs.Handshake.Calls
import OData.Proofs.Pages.Links

/-!
# What listeners are told

Of all that is seen, listeners care for calls and for what they are told themselves
(`Journal.heard`). An execution is one `Round` of that: the calls before its own one, of which
nobody is told, then the word to every listener in turn and the call that it is about, and at the
end, if the execution has failed, its failure to every listener. Without a URI there is no call and
no word of one.

**Whatever a caller does with requests, batches and the pages that come of them, what is heard is
one round for each execution, one after the other, and nothing else** (`heard_of_course`). The
round of a further page is for the listeners of the request that the first page has come from.
-/

set_option autoImplicit false

namespace OData

/-! ## Hearing -/

def Event.isHeard : Event → Bool
  | called _ | announced _ _ | reported _ _ => true
  | closed _ | warned _ => false

/-- The calls and what listeners were told, oldest first. -/
def Journal.heard (j : Journal) : List Event := j.events.filter Event.isHeard

theorem Journal.heard_of_events {j j' : Journal} {es : List Event}
    (h : j'.events = j.events ++ es) : j'.heard = j.heard ++ es.filter Event.isHeard := by
  unfold heard
  rw [h, List.filter_append]

theorem filter_map_isHeard {α : Type} {f : α → Event} (h : ∀ a, (f a).isHeard = true)
    (as : List α) : (as.map f).filter Event.isHeard = as.map f := by
  refine List.filter_eq_self.mpr ?_
  intro e he
  obtain ⟨a, -, rfl⟩ := List.mem_map.mp he
  exact h a

theorem Call.filter_told (c : Call) (listeners : List Listener) :
    (c.told listeners).filter Event.isHeard = c.told listeners := by
  unfold told
  rw [List.filter_append, filter_map_isHeard fun _ => rfl]
  rfl

/-! ## Rounds -/

namespace Sending

instance (s : Sending) : Decidable s.NeedsToken := inferInstanceAs (Decidable (_ ∧ _))

/-- The token that is got for a sending with these replies left. -/
def token? (s : Sending) (replies : List Reply) : Option String :=
  if s.NeedsToken then
    (s.context.tokens.outcome s.context.servicePath s.headers replies).toOption
  else none

theorem filter_events (s : Sending) (token? : Option String) :
    (s.events token?).filter Event.isHeard = s.events token? := by
  unfold events
  split
  · rfl
  · rw [List.filter_append, filter_map_isHeard fun _ => rfl, Call.filter_told]

end Sending

/-- How an attempt has shown says which token was got. -/
theorem TokenSource.Attempted.token?_eq {α : Type} {s : Sending} {replies : List Reply}
    {token? : Option String} {done : Except Failure α}
    (h : s.context.tokens.Attempted s.context.servicePath s.headers replies s.NeedsToken token?
      done) : token? = s.token? replies := by
  refine Option.ext ?_
  intro token
  rw [h.got, ← outcome_eq_ok_iff, Sending.token?]
  by_cases hneeded : s.NeedsToken
  · rw [if_pos hneeded]
    constructor
    · rintro ⟨-, hgot⟩
      rw [hgot]
      rfl
    · intro hgot
      exact ⟨hneeded, eq_ok_of_toOption hgot⟩
  · rw [if_neg hneeded]
    exact ⟨fun hgot => absurd hgot.1 hneeded, nofun⟩

/-- An execution: what it sends, the replies that were left for it, and how it has failed. It is for
the listeners of what the caller has executed himself, also where it goes on from there. -/
structure Round where
  listeners : List Listener
  sending : Sending
  replies : List Reply
  failure? : Option Failure

namespace Round

/-- The execution of a request for a further page, if there is one. -/
def ofFollowUp (listeners : List Listener) (q? : Option Request) (replies : List Reply)
    (failure? : Option Failure) : List Round :=
  q?.toList.map fun q => ⟨listeners, q.sending, replies, failure?⟩

/-- What is heard of an execution. -/
def events (x : Round) : List Event :=
  x.sending.events (x.sending.token? x.replies) ++
    x.failure?.toList.flatMap (·.told x.sending.context.listeners)

theorem flatMap_ofFollowUp (listeners : List Listener) (q : Request) (replies : List Reply)
    (failure? : Option Failure) :
    (ofFollowUp listeners (some q) replies failure?).flatMap events =
      events ⟨listeners, q.sending, replies, failure?⟩ :=
  List.append_nil _

theorem heard_of_shows {α : Type} {s : Sending} {warnings : List Warning} {n : Network}
    {ran : Except Failure α × Network} (h : s.Shows warnings n ran) (listeners : List Listener) :
    ran.2.journal.heard = n.journal.heard ++
      events ⟨listeners, s, n.replies, failureIn ran.1⟩ := by
  obtain ⟨token?, hattempted, hevents⟩ := h
  have hwarned : (warnings.map Event.warned).filter Event.isHeard = [] := by
    refine List.filter_eq_nil_iff.mpr ?_
    intro e he
    obtain ⟨w, -, rfl⟩ := List.mem_map.mp he
    exact Bool.false_ne_true
  have hreported : ((failureIn ran.1).toList.flatMap (·.told s.context.listeners)).filter
      Event.isHeard = (failureIn ran.1).toList.flatMap (·.told s.context.listeners) := by
    refine List.filter_eq_self.mpr ?_
    intro e he
    obtain ⟨f, -, he⟩ := List.mem_flatMap.mp he
    obtain ⟨l, -, rfl⟩ := List.mem_map.mp he
    rfl
  have hsent : s.events token? = s.events (s.token? n.replies) := by
    unfold Sending.events
    cases hu : s.uri with
    | error f => rfl
    | ok uri => rw [(hattempted uri hu).token?_eq]
  rw [Journal.heard_of_events hevents, List.filter_append, List.filter_append, hwarned, hreported,
    Sending.filter_events, List.nil_append, hsent]
  rfl

end Round

/-! ## Whose listeners are told -/

/-- What comes of executing a request is what has come of sending it. -/
theorem Request.sendWith_of_execute {q : Request} {n n' : Network} {r : Response}
    (h : q.execute.run n = (.ok r, n')) : ∃ uri headers n₁ n₂,
      (q.sendWith uri headers).run n₁ = (.ok r, n₂) := by
  rw [run_execute] at h
  cases hu : q.uri .regular with
  | error f =>
    rw [hu] at h
    cases h
  | ok uri =>
    rw [hu] at h
    dsimp only at h
    rcases hrun : (q.sendPrepared uri).run (n.record (q.warnings.map .warned)) with ⟨outcome, n₁⟩
    rw [hrun] at h
    cases h
    unfold sendPrepared at hrun
    dsimp only at hrun
    split at hrun
    · rcases hshake : (Handshake.run q.context.tokens q.context.servicePath q.sentHeaders
        (q.sendWith uri)).run (n.record (q.warnings.map .warned)) with ⟨⟨outcome, headers⟩, n₂⟩
      rw [StateT.run_bind, hshake] at hrun
      cases hrun
      obtain ⟨headers', n₃, hsend⟩ := Handshake.run_eq_ok hshake
      exact ⟨uri, headers', n₃, _, hsend⟩
    · exact ⟨uri, _, _, _, hrun⟩

/-- The response to a request remembers it as it was sent. -/
theorem Request.request_of_execute {q : Request} {n n' : Network} {r : Response}
    (h : q.execute.run n = (.ok r, n')) : ∃ headers, r.request = some (q.executed headers) := by
  obtain ⟨uri, headers, n₁, n₂, hsend⟩ := sendWith_of_execute h
  obtain ⟨k, outcome, hrun, hout⟩ := q.oneCall_sendWith uri headers n₁
  rw [hsend] at hrun
  cases hrun
  obtain ⟨a, -, -, rfl⟩ := hout
  exact ⟨headers, rfl⟩

/-- The response to a batch remembers no request. -/
theorem Batch.request_of_execute {b : Batch} {n n' : Network} {x : BatchResponse}
    (h : b.execute.run n = (.ok x, n')) : x.response.request = none := by
  obtain ⟨-, uri, headers, n₁, n₂, hsend⟩ := sendWith_of_execute h
  obtain ⟨k, outcome, hrun, hout⟩ := b.oneCall_sendWith uri headers n₁
  rw [hsend] at hrun
  cases hrun
  obtain ⟨a, -, -, hx⟩ := hout
  rw [hx]
  rfl

/-- The request for the page behind a page, if one is found. -/
def Response.followUp? (r : Response) : Option Request :=
  match r.foundRequest with
  | .ok q? => q?
  | .error _ => none

namespace Pages

/-- The request that the next step of a walk executes, if it does. -/
def followUp? : Pages → Option Request
  | follow q => some q
  | first _ | failed _ | done => none

/-- From here on, these listeners are told of further pages. -/
def Tells (listeners : List Listener) : Pages → Prop
  | first r => ∀ q, r.request = some q → q.context.listeners = listeners
  | follow q => q.context.listeners = listeners
  | failed _ | done => True

end Pages

/-- What a caller has, and the listeners of what he has executed to get it. -/
structure Holding where
  listeners : List Listener
  pages : Pages

/-- What he is given by an execution, if it is a response. -/
def Holding.given (listeners : List Listener) (r? : Option Response) : List Holding :=
  r?.toList.map fun r => ⟨listeners, .first r⟩

/-- What a caller may do: he executes requests and batches, whatever their listeners, and asks the
pages that come of them for further ones, by hand or in a walk. He has what he was given at any
time; he may read it in any way, and on the network may happen what is not heard. In the rounds
stand the executions, each with what has come of it. -/
inductive Course (n₀ : Network) : List Holding → List Round → Network → Prop where
  | start : Course n₀ [] [] n₀
  | request {held : List Holding} {rounds : List Round} {n n' : Network}
      {outcome : Except Failure Response} (before : Course n₀ held rounds n) (q : Request)
      (run : q.execute.run n = (outcome, n')) :
      Course n₀ (held ++ Holding.given q.context.listeners outcome.toOption)
        (rounds ++ [⟨q.context.listeners, q.sending, n.replies, failureIn outcome⟩]) n'
  | batch {held : List Holding} {rounds : List Round} {n n' : Network}
      {outcome : Except Failure BatchResponse} (before : Course n₀ held rounds n) (b : Batch)
      (run : b.execute.run n = (outcome, n')) :
      Course n₀ (held ++ Holding.given b.context.listeners (outcome.toOption.map (·.response)))
        (rounds ++ [⟨b.context.listeners, b.sending, n.replies, failureIn outcome⟩]) n'
  | nextPage {held : List Holding} {rounds : List Round} {n n' : Network}
      {listeners : List Listener} {outcome : Except Failure Response} {r r' : Response}
      (before : Course n₀ held rounds n) (has : ⟨listeners, .first r⟩ ∈ held)
      (run : r.nextPage.run n = ((outcome, r'), n')) :
      Course n₀ (held ++ ⟨listeners, .first r'⟩ :: Holding.given listeners outcome.toOption)
        (rounds ++ Round.ofFollowUp listeners r.followUp? n.replies (failureIn outcome)) n'
  | next {held : List Holding} {rounds : List Round} {n n' : Network} {listeners : List Listener}
      {item : Option (Except Failure Response)} {p p' : Pages}
      (before : Course n₀ held rounds n) (has : ⟨listeners, p⟩ ∈ held)
      (run : p.next.run n = ((item, p'), n')) :
      Course n₀ (held ++ ⟨listeners, p'⟩ :: Holding.given listeners (item.bind Except.toOption))
        (rounds ++ Round.ofFollowUp listeners p.followUp? n.replies (item.bind failureIn)) n'
  | meanwhile {held : List Holding} {rounds : List Round} {n n' : Network}
      {listeners : List Listener} {r r' : Response} (before : Course n₀ held rounds n)
      (has : ⟨listeners, .first r⟩ ∈ held) (same : r'.core = r.core)
      (quiet : n'.journal.heard = n.journal.heard) :
      Course n₀ (held ++ [⟨listeners, .first r'⟩]) rounds n'

/-! ## Courses -/

section

variable {listeners : List Listener}

theorem Pages.tells_of_execute {q : Request} (hq : q.context.listeners = listeners)
    {n n' : Network} {r : Response} (h : q.execute.run n = (.ok r, n')) :
    (first r).Tells listeners := by
  obtain ⟨headers, hrequest⟩ := Request.request_of_execute h
  intro q' hq'
  rw [hrequest] at hq'
  cases hq'
  exact hq

theorem Pages.tells_of_core {r r' : Response} (h : (first r).Tells listeners)
    (hcore : r'.core = r.core) : (first r').Tells listeners := by
  intro q hq
  rw [(Response.of_core_eq hcore).1] at hq
  exact h q hq

/-- A request that is found in a page has the listeners of the page. -/
theorem Pages.tells_of_found {r : Response} (h : (first r).Tells listeners) {q : Request}
    (hq : r.foundRequest = .ok (some q)) : q.context.listeners = listeners := by
  obtain ⟨q₀, link, -, hq₀, rfl⟩ := Response.foundRequest_eq_some hq
  exact h q₀ hq₀

theorem Pages.tells_of_followUp {r : Response} (h : (first r).Tells listeners) {q : Request}
    (hq : r.followUp? = some q) : q.context.listeners = listeners := by
  unfold Response.followUp? at hq
  split at hq
  · next hfound =>
    rw [hq] at hfound
    exact tells_of_found h hfound
  · cases hq

theorem Pages.tells_onward {r : Response} (h : (first r).Tells listeners) :
    (onward r).Tells listeners := by
  unfold onward
  split
  · next q hfound => exact tells_of_found h hfound
  · trivial
  · trivial

/-- From here on, its own listeners are told. -/
def Holding.Tells (x : Holding) : Prop := x.pages.Tells x.listeners

theorem Holding.tells_given {r? : Option Response}
    (h : ∀ r, r? = some r → (Pages.first r).Tells listeners) :
    ∀ x ∈ given listeners r?, x.Tells := by
  intro x hx
  obtain ⟨r, hmem, rfl⟩ := List.mem_map.mp hx
  exact h r (Option.mem_toList.mp hmem)

/-- Asking for the next page is a round if a request for it is found, and nothing is heard
otherwise. -/
theorem heard_of_nextPage {r r' : Response} {n n' : Network} {outcome : Except Failure Response}
    (h : r.nextPage.run n = ((outcome, r'), n')) :
    n'.journal.heard = n.journal.heard ++
      (Round.ofFollowUp listeners r.followUp? n.replies (failureIn outcome)).flatMap
        Round.events := by
  obtain ⟨-, k, ⟨f, hfound, -, rfl⟩ | ⟨hfound, -, rfl⟩ | ⟨q, hfound, hexec⟩⟩ :=
    Response.nextPage_cases h
  · rw [Response.followUp?, hfound]
    exact (List.append_nil _).symm
  · rw [Response.followUp?, hfound]
    exact (List.append_nil _).symm
  · have hround := Round.heard_of_shows (q.shows (n.pulling k)) listeners
    rw [hexec] at hround
    rw [Response.followUp?, hfound, Round.flatMap_ofFollowUp]
    exact hround

/-- The same for a step of a walk: only one that executes a request is a round. -/
theorem heard_of_next {p p' : Pages} {n n' : Network} {item : Option (Except Failure Response)}
    (h : p.next.run n = ((item, p'), n')) :
    n'.journal.heard = n.journal.heard ++
      (Round.ofFollowUp listeners p.followUp? n.replies (item.bind failureIn)).flatMap
        Round.events := by
  cases p with
  | first r =>
    obtain ⟨k, hnext⟩ := Pages.run_next_first r n
    rw [hnext] at h
    cases h
    exact (List.append_nil _).symm
  | failed f =>
    cases h
    exact (List.append_nil _).symm
  | done =>
    cases h
    exact (List.append_nil _).symm
  | follow q =>
    have hround := Round.heard_of_shows (q.shows n) listeners
    obtain ⟨k, hnext⟩ := Pages.run_next_follow q n
    rw [hnext] at h
    rw [Pages.followUp?, Round.flatMap_ofFollowUp]
    rcases hexec : q.execute.run n with ⟨f | r, n₁⟩
    · rw [hexec] at h hround
      cases h
      exact hround
    · rw [hexec] at h hround
      cases h
      exact hround

/-- Asking a page for the next one leaves the listeners as they are. -/
theorem tells_of_nextPage {r r' : Response} {n n' : Network} {outcome : Except Failure Response}
    (hr : (Pages.first r).Tells listeners) (h : r.nextPage.run n = ((outcome, r'), n')) :
    ∀ x ∈ ⟨listeners, .first r'⟩ :: Holding.given listeners outcome.toOption, x.Tells := by
  obtain ⟨rfl, k, hcases⟩ := Response.nextPage_cases h
  refine List.forall_mem_cons.mpr
    ⟨Pages.tells_of_core hr r.core_lookedAt, Holding.tells_given ?_⟩
  intro next hnext
  obtain rfl := eq_ok_of_toOption hnext
  obtain ⟨f, -, hout, -⟩ | ⟨-, hout, -⟩ | ⟨q, hfound, hexec⟩ := hcases
  · cases hout
  · cases hout
  · exact Pages.tells_of_execute (Pages.tells_of_found hr hfound) hexec

theorem tells_of_next {p p' : Pages} {n n' : Network} {item : Option (Except Failure Response)}
    (hp : p.Tells listeners) (h : p.next.run n = ((item, p'), n')) :
    ∀ x ∈ ⟨listeners, p'⟩ :: Holding.given listeners (item.bind Except.toOption), x.Tells := by
  cases p with
  | first r =>
    obtain ⟨k, hnext⟩ := Pages.run_next_first r n
    rw [hnext] at h
    cases h
    refine List.forall_mem_cons.mpr ⟨Pages.tells_onward hp, Holding.tells_given ?_⟩
    rintro page ⟨⟩
    exact Pages.tells_of_core hp r.core_lookedAt
  | failed f =>
    cases h
    exact List.forall_mem_cons.mpr ⟨trivial, Holding.tells_given (by rintro page ⟨⟩)⟩
  | done =>
    cases h
    exact List.forall_mem_cons.mpr ⟨trivial, Holding.tells_given (by rintro page ⟨⟩)⟩
  | follow q =>
    obtain ⟨k, hnext⟩ := Pages.run_next_follow q n
    rw [hnext] at h
    rcases hexec : q.execute.run n with ⟨f | r, n₁⟩
    · rw [hexec] at h
      cases h
      exact List.forall_mem_cons.mpr ⟨trivial, Holding.tells_given (by rintro page ⟨⟩)⟩
    · rw [hexec] at h
      cases h
      have hr := Pages.tells_of_execute hp hexec
      refine List.forall_mem_cons.mpr ⟨Pages.tells_onward hr, Holding.tells_given ?_⟩
      rintro page ⟨⟩
      exact Pages.tells_of_core hr r.core_lookedAt

/-- What the caller has goes on with the listeners of what he has executed. -/
theorem tells_of_course {n₀ n : Network} {held : List Holding} {rounds : List Round}
    (h : Course n₀ held rounds n) : ∀ x ∈ held, x.Tells := by
  induction h with
  | start => exact fun _ h => absurd h List.not_mem_nil
  | request before q run ih =>
    refine List.forall_mem_append.mpr ⟨ih, Holding.tells_given ?_⟩
    intro r hr
    obtain rfl := eq_ok_of_toOption hr
    exact Pages.tells_of_execute rfl run
  | batch before b run ih =>
    refine List.forall_mem_append.mpr ⟨ih, Holding.tells_given ?_⟩
    intro r hr q hq
    obtain ⟨x, hx, rfl⟩ := Option.map_eq_some_iff.mp hr
    obtain rfl := eq_ok_of_toOption hx
    rw [Batch.request_of_execute run] at hq
    cases hq
  | nextPage before has run ih =>
    exact List.forall_mem_append.mpr ⟨ih, tells_of_nextPage (ih _ has) run⟩
  | next before has run ih =>
    exact List.forall_mem_append.mpr ⟨ih, tells_of_next (ih _ has) run⟩
  | @meanwhile held rounds n n' listeners r r' before has same quiet ih =>
    have hr : (Pages.first r).Tells listeners := ih _ has
    exact List.forall_mem_append.mpr
      ⟨ih, List.forall_mem_singleton.mpr (Pages.tells_of_core hr same)⟩

theorem Round.listeners_of_ofFollowUp {q? : Option Request}
    (hq : ∀ q, q? = some q → q.context.listeners = listeners) (replies : List Reply)
    (failure? : Option Failure) :
    ∀ x ∈ ofFollowUp listeners q? replies failure?,
      x.sending.context.listeners = x.listeners := by
  intro x hx
  obtain ⟨q, hmem, rfl⟩ := List.mem_map.mp hx
  exact hq q (Option.mem_toList.mp hmem)

theorem listeners_of_course {n₀ n : Network} {held : List Holding} {rounds : List Round}
    (h : Course n₀ held rounds n) :
    ∀ x ∈ rounds, x.sending.context.listeners = x.listeners := by
  induction h with
  | start => exact fun _ h => absurd h List.not_mem_nil
  | request before q run ih =>
    exact List.forall_mem_append.mpr ⟨ih, List.forall_mem_singleton.mpr rfl⟩
  | batch before b run ih =>
    exact List.forall_mem_append.mpr ⟨ih, List.forall_mem_singleton.mpr rfl⟩
  | nextPage before has run ih =>
    refine List.forall_mem_append.mpr ⟨ih, Round.listeners_of_ofFollowUp ?_ _ _⟩
    exact fun q hq => Pages.tells_of_followUp (tells_of_course before _ has) hq
  | @next held rounds n n' listeners item p p' before has run ih =>
    have hp := tells_of_course before _ has
    refine List.forall_mem_append.mpr ⟨ih, Round.listeners_of_ofFollowUp ?_ _ _⟩
    intro q hq
    cases p with
    | follow q' =>
      cases hq
      exact hp
    | _ => cases hq
  | meanwhile before has same quiet ih => exact ih

/-- **Every execution is heard once, and nothing else is.** Whatever a caller does, what is heard
are the rounds of his executions in their order: for each that has a URI the calls for its token,
then word of its own call to every listener in the order of their registration, then that call; for
each that has failed, in the end its failure to every listener. An execution that goes on from what
has come of another is for the same listeners. -/
theorem heard_of_course {n₀ n : Network} {held : List Holding} {rounds : List Round}
    (h : Course n₀ held rounds n) :
    n.journal.heard = n₀.journal.heard ++ rounds.flatMap Round.events ∧
      ∀ x ∈ rounds, x.sending.context.listeners = x.listeners := by
  refine ⟨?_, listeners_of_course h⟩
  induction h with
  | start => exact (List.append_nil _).symm
  | @request held rounds n n' outcome before q run ih =>
    have hround := Round.heard_of_shows (q.shows n) q.context.listeners
    rw [run] at hround
    rw [hround, ih, List.flatMap_append, List.flatMap_singleton, List.append_assoc]
  | @batch held rounds n n' outcome before b run ih =>
    have hround := Round.heard_of_shows (b.shows n) b.context.listeners
    rw [run] at hround
    rw [hround, ih, List.flatMap_append, List.flatMap_singleton, List.append_assoc]
  | nextPage before has run ih =>
    rw [heard_of_nextPage run, ih, List.flatMap_append, List.append_assoc]
  | next before has run ih =>
    rw [heard_of_next run, ih, List.flatMap_append, List.append_assoc]
  | meanwhile before has same quiet ih => exact quiet.trans ih

end

/-- A creation that two listeners watch. -/
def watchedCreation : Request :=
  { createPerson with context := { createPerson.context with listeners := [⟨1⟩, ⟨2⟩] } }

/-- A service that gives a token and then is gone. -/
def tokenThenNothing : Network :=
  .scripted [.ok ⟨200, "OK", .ofPairs [("X-CSRF-Token", "foobar")], none⟩]

/-- The call that the listeners are told of. -/
def watchedCall : Call :=
  ⟨.post, "/service/People", ⟨[⟨"Accept", ["application/json"]⟩, ⟨"Authorization", ["Basic abc"]⟩,
    ⟨"Content-Type", ["application/json"]⟩, ⟨"x-csrf-token", ["foobar"]⟩]⟩, some "[]"⟩

/-- The call for the token. -/
def watchedPreflight : Call :=
  ⟨.head, "/service/", ⟨[⟨"Authorization", ["Basic abc"]⟩, ⟨"Content-Type", ["application/json"]⟩,
    ⟨"x-csrf-token", ["fetch"]⟩]⟩, none⟩

/-- Nobody is told of the call for the token; both listeners are told of the creation, and then of
its failure. -/
theorem heard_of_course_watchedCreation :
    ∃ f n, watchedCreation.execute.run tokenThenNothing = (.error f, n) ∧
      n.journal.heard =
        [.called watchedPreflight, .announced ⟨1⟩ watchedCall, .announced ⟨2⟩ watchedCall,
          .called watchedCall, .reported ⟨1⟩ f, .reported ⟨2⟩ f] := by
  have hfails : (watchedCreation.execute.run tokenThenNothing).1.toOption.isNone = true := by
    decide +kernel
  rcases hrun : watchedCreation.execute.run tokenThenNothing with ⟨f | r, n⟩
  · have hheard := (heard_of_course (.request .start watchedCreation hrun)).1
    have huri : watchedCreation.sending.uri = .ok "/service/People" :=
      eq_ok_of_toOption (by decide +kernel)
    have hpreflight : watchedCreation.sending.preflight = [watchedPreflight] := by decide +kernel
    have hcall : watchedCreation.sending.call "/service/People"
        (watchedCreation.sending.headers.withToken
          (watchedCreation.sending.token? tokenThenNothing.replies)) = watchedCall := by
      decide +kernel
    have hevents : watchedCreation.sending.events
        (watchedCreation.sending.token? tokenThenNothing.replies) =
          .called watchedPreflight :: watchedCall.told [⟨1⟩, ⟨2⟩] := by
      unfold Sending.events
      rw [huri]
      dsimp only
      rw [hcall, hpreflight]
      rfl
    refine ⟨f, n, rfl, hheard.trans ?_⟩
    rw [List.nil_append, List.flatMap_singleton, Round.events, hevents]
    rfl
  · rw [hrun] at hfails
    cases hfails

end OData
