import OData.Proofs.Handshake.Calls

/-!
# Requests that change nothing

Such a request needs no token: it makes its own call, or none if it has no URI (`Request.ownCalls`).
**What comes of it is decided by the replies that are left** (`Request.execute_of_replies`), and by
nothing else that the outside has seen.
-/

set_option autoImplicit false

namespace OData

namespace Request

/-- A read addresses its path and sends its stored headers, and has no body. -/
theorem of_isRead {q : Request} (h : q.operation.isRead = true) :
    q.target = q.path ∧ q.sentHeaders = q.context.headers ∧ q.method = .get ∧
      q.operation.body? = none ∧ q.operation.modifies = false := by
  obtain ⟨context, path, operation⟩ := q
  cases operation with
  | read query => exact ⟨rfl, rfl, rfl, rfl, rfl⟩
  | _ => cases h

/-- The call of a request that needs no token, if it has a URI. -/
def ownCalls (q : Request) : List Call :=
  match q.uri .regular with
  | .ok uri => [q.callAt uri q.sentHeaders]
  | .error _ => []

theorem length_ownCalls_le (q : Request) : q.ownCalls.length ≤ 1 := by
  unfold ownCalls
  split
  · exact Nat.le_refl 1
  · exact Nat.zero_le 1

/-- A reply settles what comes of a call. -/
theorem sendWith_of_replies (q : Request) (uri : String) (headers : Headers)
    (replies : List Reply) :
    ∃ outcome, ∀ n, n.replies = replies → ∃ k, (q.sendWith uri headers).run n =
      (outcome, (n.afterCall q.context.listeners (q.callAt uri headers)).pulling k) := by
  have hreply : ∀ n : Network, n.replies = replies → n.replyTo (q.callAt uri headers) =
      (Network.scripted replies).replyTo (q.callAt uri headers) := by
    intro n hn
    unfold Network.replyTo
    rw [hn]
    rfl
  cases hscripted : (Network.scripted replies).replyTo (q.callAt uri headers) with
  | error fault =>
    refine ⟨.error ((Failure.connection (.call q.method uri) fault).atRequest
      (q.executed headers).locus), ?_⟩
    intro n hn
    refine ⟨0, ?_⟩
    unfold sendWith
    dsimp only
    rw [StateT.run_bind, Session.run_call, hreply n hn, hscripted]
    rfl
  | ok a =>
    obtain ⟨body, hchecked⟩ := Session.run_requireHealthy_eq (q.responseTo headers a)
    suffices h : ∀ n, n.replies = replies → (q.sendWith uri headers).run n =
        (Session.requireHealthy (q.responseTo headers a)).run
          (n.afterCall q.context.listeners (q.callAt uri headers)) from
      ⟨_, fun n hn => by rw [h n hn]; exact hchecked _⟩
    intro n hn
    unfold sendWith
    dsimp only
    rw [StateT.run_bind, Session.run_call, hreply n hn, hscripted]
    rfl

/-- **The replies that are left decide what comes of a request that changes nothing.** It makes its
own call and uses up one reply, or fails without either if it has no URI. -/
theorem execute_of_replies {q : Request} (hq : q.operation.modifies = false)
    (replies : List Reply) :
    ∃ outcome, (∀ f, q.uri .regular = .error f → outcome = .error (f.orAtRequest q.locus)) ∧
      ∀ n, n.replies = replies → ∃ n', q.execute.run n = (outcome, n') ∧
        n'.replies = replies.drop q.ownCalls.length ∧
        n'.journal.calls = n.journal.calls ++ q.ownCalls := by
  have hwarned : ∀ n : Network, (n.record (q.warnings.map .warned)).journal.calls =
      n.journal.calls := by
    intro n
    refine n.calls_record_map _ ?_ q.warnings
    intro w c h
    cases h
  have hreplies : ∀ (n : Network) (outcome : Except Failure Response),
      (n.reportError q.context.listeners outcome).replies = n.replies := by
    intro n outcome
    cases outcome <;> rfl
  unfold ownCalls
  cases huri : q.uri .regular with
  | error f =>
    refine ⟨.error (f.orAtRequest q.locus), ?_, ?_⟩
    · intro f' hf
      cases hf
      rfl
    · intro n hn
      rw [run_execute, huri]
      refine ⟨_, rfl, hn, ?_⟩
      rw [List.append_nil]
      exact (Network.calls_reportError _ _ _).trans (hwarned n)
  | ok uri =>
    obtain ⟨outcome, hsent⟩ := q.sendWith_of_replies uri q.sentHeaders replies
    refine ⟨outcome, ?_, ?_⟩
    · intro f hf
      cases hf
    · intro n hn
      obtain ⟨k, hsent⟩ := hsent (n.record (q.warnings.map .warned)) hn
      rw [run_execute, huri]
      dsimp only
      rw [sendPrepared_eq hq, hsent]
      refine ⟨_, rfl, ?_, ?_⟩
      · rw [hreplies, List.length_singleton, List.drop_one, ← hn]
        rfl
      · refine (Network.calls_reportError _ _ _).trans ?_
        refine (Network.calls_afterCall _ _ _).trans ?_
        rw [hwarned]

end Request

end OData
