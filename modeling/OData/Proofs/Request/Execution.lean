import OData.Proofs.Session

/-!
# What executing a request comes to

A request that is sent makes one call (`Request.oneCall_sendWith`). **The response to a request that
changes nothing is made of the next reply** (`Request.execute_eq_ok`): it needs no token, so nothing
is asked for before it.
-/

set_option autoImplicit false

namespace OData

theorem eq_ok_of_toOption {ε α : Type} {x : Except ε α} {a : α} (h : x.toOption = some a) :
    x = .ok a := by
  cases x with
  | error e => cases h
  | ok b =>
    cases h
    rfl

namespace Request

/-- The response that an answer to the request makes, with the headers it was sent with. -/
def responseTo (q : Request) (headers : Headers) (a : Answer) : Response :=
  .of (some (q.executed headers)) (q.executed headers).locus a true

theorem oneCall_sendWith (q : Request) (uri : String) (headers : Headers) :
    Session.OneCall q.context.listeners (q.callAt uri headers) (q.responseTo headers)
      (q.sendWith uri headers) :=
  Session.oneCall _ _ _ _

theorem run_execute (q : Request) (n : Network) :
    q.execute.run n =
      match (match q.uri .regular with
        | .error f => pure (.error (f.orAtRequest q.locus))
        | .ok uri => q.sendPrepared uri : Session (Except Failure Response)).run
          (n.record (q.warnings.map .warned)) with
      | (outcome, n') => (outcome, n'.reportError q.context.listeners outcome) := by
  unfold execute
  cases q.uri .regular <;> rfl

/-- Without a handshake, a request that can be made is a call. -/
theorem sendPrepared_eq {q : Request} (hq : q.operation.modifies = false) (uri : String) :
    q.sendPrepared uri = q.sendWith uri q.sentHeaders := by
  unfold sendPrepared
  rw [hq]
  rfl

theorem execute_eq_ok {q : Request} (hq : q.operation.modifies = false) {n n' : Network}
    {r : Response} (h : q.execute.run n = (.ok r, n')) :
    ∃ a, n.replies = .ok a :: n'.replies ∧ r = q.responseTo q.sentHeaders a.delivered := by
  rw [run_execute] at h
  cases hu : q.uri .regular with
  | error f =>
    rw [hu] at h
    cases h
  | ok uri =>
    obtain ⟨k, outcome, hrun, hout⟩ :=
      q.oneCall_sendWith uri q.sentHeaders (n.record (q.warnings.map .warned))
    rw [hu] at h
    dsimp only at h
    rw [sendPrepared_eq hq, hrun] at h
    cases outcome with
    | error f => cases h
    | ok r' =>
      obtain ⟨a', hreply, -, hr⟩ := hout
      obtain ⟨a, hreplies, rfl⟩ := Network.replyTo_eq_ok hreply
      cases h
      exact ⟨a, hreplies, hr⟩

/-- A healthy reply gets to the request, if that can be made. -/
theorem execute_of_reply {q : Request} (hq : q.operation.modifies = false) {uri : String}
    (huri : q.uri .regular = .ok uri) {n : Network} {a : Answer} {left : List Reply}
    (hn : n.replies = .ok a :: left) (ha : a.status < 400) :
    ∃ n', q.execute.run n = (.ok (q.responseTo q.sentHeaders a.delivered), n') ∧
      n'.replies = left := by
  obtain ⟨k, outcome, hrun, hout⟩ :=
    q.oneCall_sendWith uri q.sentHeaders (n.record (q.warnings.map .warned))
  have hreply : (n.record (q.warnings.map .warned)).replyTo (q.callAt uri q.sentHeaders) =
      .ok a.delivered := Network.replyTo_of_replies hn _
  cases outcome with
  | error f => exact absurd ha (Nat.not_lt.mpr (hout.2 a.delivered hreply))
  | ok r =>
    obtain ⟨a', hreply', -, rfl⟩ := hout
    rw [hreply] at hreply'
    cases hreply'
    rw [run_execute, huri]
    dsimp only
    rw [sendPrepared_eq hq, hrun]
    exact ⟨_, rfl, congrArg List.tail hn⟩

end Request

end OData
