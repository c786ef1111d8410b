import OData.Execution
import OData.Proofs.Response.Reading

/-!
# Calls and replies

A network answers a call with the first reply that is left (`Network.replyTo`), and what the outside
gets to see of a call is that the listeners are told and the call is made (`Network.afterCall`). The
health check passes a response on as it is or makes a failure of it, and pulls content at most
(`Session.run_requireHealthy_eq`). **So a session that makes a call and checks the response is one
call** (`Session.oneCall`): it uses up one reply, its response is made of that reply, and its failure
is the only one.
-/

set_option autoImplicit false

namespace OData

namespace Journal

theorem record_record (j : Journal) (es es' : List Event) :
    (j.record es).record es' = j.record (es ++ es') := by
  unfold record
  rw [List.append_assoc]

/-- The calls among some events. -/
def callsIn (es : List Event) : List Call :=
  es.filterMap fun
    | .called c => some c
    | _ => none

theorem callsIn_append (es es' : List Event) : callsIn (es ++ es') = callsIn es ++ callsIn es' :=
  List.filterMap_append

theorem callsIn_map_called (cs : List Call) : callsIn (cs.map .called) = cs := by
  unfold callsIn
  rw [List.filterMap_map]
  exact List.filterMap_some

/-- More events are more calls. -/
theorem calls_of_events {j j' : Journal} {es : List Event} (h : j'.events = j.events ++ es) :
    j'.calls = j.calls ++ callsIn es := by
  unfold calls
  rw [h]
  exact callsIn_append _ _

/-- Warning, telling and reporting are no calls. -/
theorem callsIn_map {α : Type} (f : α → Event) (h : ∀ a c, f a ≠ .called c) (as : List α) :
    callsIn (as.map f) = [] := by
  unfold callsIn
  rw [List.filterMap_eq_nil_iff]
  intro e he
  obtain ⟨a, -, rfl⟩ := List.mem_map.mp he
  split
  · next c hc => exact absurd hc (h a c)
  · rfl

end Journal

/-- What is seen of a call of which these listeners are told. -/
def Call.told (c : Call) (listeners : List Listener) : List Event :=
  listeners.map (.announced · c) ++ [.called c]

theorem Call.callsIn_told (c : Call) (listeners : List Listener) :
    Journal.callsIn (c.told listeners) = [c] := by
  have hnone : Journal.callsIn (listeners.map (.announced · c)) = [] := by
    refine Journal.callsIn_map _ ?_ _
    intro l c' h
    cases h
  rw [told, Journal.callsIn_append, hnone]
  rfl

/-- What is seen of telling these listeners of a failure. -/
def Failure.told (f : Failure) (listeners : List Listener) : List Event :=
  listeners.map (.reported · f)

def failureIn {α : Type} : Except Failure α → Option Failure
  | .ok _ => none
  | .error f => some f

theorem failureIn_map {α β : Type} (g : α → β) (outcome : Except Failure α) :
    failureIn (outcome.map g) = failureIn outcome := by
  cases outcome <;> rfl

/-- The answer as it comes off the wire. -/
def Answer.delivered (a : Answer) : Answer := { a with body := a.body.map .overWire }

namespace Network

/-- What the transport says to a call. -/
def replyTo (n : Network) (c : Call) : Reply :=
  match n.replies with
  | [] => .error (exhausted c)
  | reply :: _ => reply.map Answer.delivered

/-- The network after a call of which these listeners have been told. -/
def afterCall (n : Network) (listeners : List Listener) (c : Call) : Network :=
  ⟨n.journal.record (listeners.map (.announced · c) ++ [.called c]), n.replies.tail⟩

/-- The network after so much has been pulled off the wire. -/
def pulling (n : Network) (k : Nat) : Network := { n with journal := n.journal.pulling k }

/-- A call uses up a reply if there is one, and nothing is seen but the call. -/
theorem send_eq (n : Network) (c : Call) : n.send c = (n.replyTo c, n.afterCall [] c) := by
  obtain ⟨j, replies⟩ := n
  cases replies with
  | nil => rfl
  | cons reply replies => rfl

/-- Listeners are told before the call is made. -/
theorem announce_afterCall (n : Network) (listeners : List Listener) (c : Call) :
    (n.announce listeners c).afterCall [] c = n.afterCall listeners c := by
  unfold afterCall announce record
  rw [Journal.record_record]
  rfl

theorem replyTo_eq_ok {n : Network} {c : Call} {a' : Answer} (h : n.replyTo c = .ok a') :
    ∃ a, n.replies = .ok a :: n.replies.tail ∧ a' = a.delivered := by
  unfold replyTo at h
  split at h
  · cases h
  · next reply replies hreplies =>
    cases reply with
    | error fault => cases h
    | ok a =>
      cases h
      exact ⟨a, by rw [hreplies]; rfl, rfl⟩

theorem replyTo_of_replies {n : Network} {a : Answer} {left : List Reply}
    (h : n.replies = .ok a :: left) (c : Call) : n.replyTo c = .ok a.delivered := by
  rw [replyTo, h]
  rfl

theorem calls_afterCall (n : Network) (listeners : List Listener) (c : Call) :
    (n.afterCall listeners c).journal.calls = n.journal.calls ++ [c] :=
  (Journal.calls_of_events rfl).trans (congrArg _ (c.callsIn_told listeners))

theorem events_reportError {α : Type} (n : Network) (listeners : List Listener)
    (outcome : Except Failure α) :
    (n.reportError listeners outcome).journal.events =
      n.journal.events ++ (failureIn outcome).toList.flatMap (·.told listeners) := by
  cases outcome with
  | ok a => exact (List.append_nil _).symm
  | error f => exact congrArg (n.journal.events ++ ·) (List.append_nil _).symm

end Network

namespace Session

/-- The outcome of a call is the reply, and what is seen of it does not depend on that. -/
theorem run_call (listeners : List Listener) (l : Locus) (c : Call) (n : Network) :
    (call listeners l c).run n =
      ((n.replyTo c).mapError fun fault =>
        (Failure.connection (.call c.method c.uri) fault).atRequest l, n.afterCall listeners c) := by
  have hsend : (send c).run (n.announce listeners c) = (n.replyTo c, n.afterCall listeners c) := by
    refine (Network.send_eq _ _).trans ?_
    rw [Network.announce_afterCall]
    rfl
  unfold call
  rw [StateT.run_bind]
  show ((send c >>= _).run (n.announce listeners c)) = _
  rw [StateT.run_bind, hsend]
  cases n.replyTo c <;> rfl

theorem run_visit {α : Type} (r : Response) (x : Access α) (n : Network) :
    (visit r x.run).run n =
      match Access.on r n.journal x with
      | ((outcome, r'), j') => ((outcome, r'), { n with journal := j' }) := rfl

theorem run_requireHealthy (r : Response) (n : Network) :
    (requireHealthy r).run n =
      match Access.on r n.journal Access.healthy with
      | ((outcome, r'), j') => (outcome.map fun _ => r', { n with journal := j' }) := rfl

theorem requireHealthy_eq_ok {r r' : Response} {n n' : Network}
    (h : (requireHealthy r).run n = (.ok r', n')) : r.status < 400 ∧ r' = r := by
  rw [run_requireHealthy] at h
  split at h
  next outcome r₁ j₁ hv =>
  cases outcome with
  | error f => cases h
  | ok u =>
    cases h
    exact Access.on_healthy_eq_ok hv

/-- A response goes through as it is or not at all, at any time. -/
theorem run_requireHealthy_eq (r : Response) :
    ∃ body, ∀ n, ∃ k, (requireHealthy r).run n =
      (if r.status < 400 then .ok r else .error ((r.unhealthy body).atRequest r.locus),
        n.pulling k) := by
  by_cases hs : r.status < 400
  · refine ⟨none, ?_⟩
    intro n
    refine ⟨0, ?_⟩
    rw [run_requireHealthy, Access.on_healthy_of_lt hs, if_pos hs]
    rfl
  · obtain ⟨body, r', hrun⟩ := Access.on_healthy_of_failing (Nat.not_lt.mp hs)
    refine ⟨body, ?_⟩
    intro n
    obtain ⟨k, hrun⟩ := hrun n.journal
    refine ⟨k, ?_⟩
    rw [run_requireHealthy, hrun, if_neg hs]
    rfl

/-- One call of which listeners are told. Its response is made of the reply, if that is healthy; its
failure has no other failures before it. -/
def OneCall (listeners : List Listener) (c : Call) (made : Answer → Response)
    (x : Session (Except Failure Response)) : Prop :=
  ∀ n, ∃ k outcome, x.run n = (outcome, (n.afterCall listeners c).pulling k) ∧
    match outcome with
    | .ok r => ∃ a, n.replyTo c = .ok a ∧ (made a).status < 400 ∧ r = made a
    | .error f => f.secondary = [] ∧ ∀ a, n.replyTo c = .ok a → 400 ≤ (made a).status

/-- A call, and a failure that remembers nothing. -/
theorem OneCall.events {listeners : List Listener} {c : Call} {made : Answer → Response}
    {x : Session (Except Failure Response)} (h : OneCall listeners c made x) (n : Network) :
    ∃ outcome n', x.run n = (outcome, n') ∧
      n'.journal.events = n.journal.events ++ c.told listeners ∧
      ∀ f, outcome = .error f → f.secondary = [] := by
  obtain ⟨k, outcome, hrun, hout⟩ := h n
  refine ⟨outcome, _, hrun, rfl, ?_⟩
  rintro f rfl
  exact hout.1

/-- A failure of the health check has no others before it. -/
theorem unhealthy_secondary (r : Response) (body : Option (List UInt8)) :
    (r.unhealthy body).secondary = [] := by
  unfold Response.unhealthy
  dsimp only
  split <;> rfl

theorem oneCall (listeners : List Listener) (l : Locus) (c : Call) (made : Answer → Response) :
    OneCall listeners c made (do
      match ← call listeners l c with
      | .error f => return .error f
      | .ok a => requireHealthy (made a)) := by
  intro n
  rw [StateT.run_bind, run_call]
  cases hreply : n.replyTo c with
  | error fault =>
    refine ⟨0, _, rfl, rfl, ?_⟩
    intro a ha
    cases ha
  | ok a =>
    obtain ⟨body, hrun⟩ := run_requireHealthy_eq (made a)
    obtain ⟨k, hrun⟩ := hrun (n.afterCall listeners c)
    refine ⟨k, _, hrun, ?_⟩
    by_cases hs : (made a).status < 400
    · rw [if_pos hs]
      exact ⟨a, rfl, hs, rfl⟩
    · rw [if_neg hs]
      refine ⟨unhealthy_secondary _ _, ?_⟩
      intro a' ha'
      cases ha'
      exact Nat.not_lt.mp hs

end Session

end OData
