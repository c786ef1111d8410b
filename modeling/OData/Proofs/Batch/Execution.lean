import OData.Batch.Execution
import OData.Proofs.Session

/-!
# The response of an executed batch

What comes of a handshake comes of its main part (`Handshake.run_eq_ok`), and a response gets past
the health check only as it is. So **the response that executing a batch gives belongs to the
batch**, which is kept with it (`locus_of_execute`).
-/

set_option autoImplicit false

namespace OData

theorem Handshake.run_eq_ok {α : Type} {t : TokenSource} {servicePath : String} {headers : Headers}
    {main : Headers → Session (Except Failure α)} {n n' : Network} {a : α} {headers' : Headers}
    (h : (Handshake.run t servicePath headers main).run n = ((.ok a, headers'), n')) :
    ∃ headers₁ n₁, (main headers₁).run n₁ = (.ok a, n') := by
  unfold Handshake.run at h
  split at h
  · -- A token is fetched. Without one, the main part is run as it would be, and may still succeed.
    rw [StateT.run_bind] at h
    rcases ht : (t.retrieve servicePath headers).run n with ⟨_ | token, n₁⟩
    · rw [ht] at h
      change (main headers >>= fun outcome => pure (outcome.mapError _, headers)).run n₁ = _ at h
      rcases hm : (main headers).run n₁ with ⟨_ | _, n₂⟩
      · rw [StateT.run_bind, hm] at h
        cases h
      · rw [StateT.run_bind, hm] at h
        cases h
        exact ⟨_, _, hm⟩
    · rw [ht] at h
      change (main (headers.insert TokenSource.header token) >>= fun outcome =>
        pure (outcome, headers.insert TokenSource.header token)).run n₁ = _ at h
      rcases hm : (main (headers.insert TokenSource.header token)).run n₁ with ⟨outcome, n₂⟩
      rw [StateT.run_bind, hm] at h
      cases h
      exact ⟨_, _, hm⟩
  · rcases hm : (main headers).run n with ⟨outcome, n₂⟩
    rw [StateT.run_bind, hm] at h
    cases h
    exact ⟨_, _, hm⟩

namespace Batch

theorem locus_of_sendWith {b : Batch} {uri : String} {headers : Headers} {n n' : Network}
    {r : Response} (h : (b.sendWith uri headers).run n = (.ok r, n')) : r.locus = b.locus := by
  unfold sendWith at h
  rw [StateT.run_bind] at h
  rcases hc : (Session.call b.context.listeners b.locus (b.callAt uri headers)).run n with
    ⟨reply, n₁⟩
  rw [hc] at h
  cases reply with
  | error f => cases h
  | ok answer =>
    have hr := (Session.requireHealthy_eq_ok h).2
    rw [hr]
    rfl

/-- What comes of executing a batch is what has come of sending it. -/
theorem sendWith_of_execute {b : Batch} {n n' : Network} {x : BatchResponse}
    (h : b.execute.run n = (.ok x, n')) : x.batch = b ∧ ∃ uri headers n₁ n₂,
      (b.sendWith uri headers).run n₁ = (.ok x.response, n₂) := by
  unfold execute at h
  dsimp only at h
  split at h
  · cases h
  · next uri _ =>
    rcases hr : (Handshake.run b.context.tokens b.context.servicePath b.sentHeaders
      (b.sendWith uri)).run n with ⟨⟨_ | response, headers⟩, n₁⟩
    · rw [StateT.run_bind, hr] at h
      cases h
    · rw [StateT.run_bind, hr] at h
      cases h
      obtain ⟨headers₁, n₁, hsend⟩ := Handshake.run_eq_ok hr
      exact ⟨rfl, uri, headers₁, n₁, _, hsend⟩

/-- **The response of an executed batch belongs to the batch**, and is kept with it. -/
theorem locus_of_execute {b : Batch} {n n' : Network} {r : BatchResponse}
    (h : b.execute.run n = (.ok r, n')) : r.batch = b ∧ r.response.locus = b.locus := by
  obtain ⟨hbatch, _, _, _, _, hsend⟩ := sendWith_of_execute h
  exact ⟨hbatch, locus_of_sendWith hsend⟩

end Batch

end OData
