import OData.Proofs.Handshake.Retrieval
import OData.Proofs.Pages.Links
import OData.Proofs.Request.Execution
import OData.Proofs.Response.Steps

/-!
# To which request failures belong

A failure is made in many places, most of which know nothing of requests, and on its way out it gets
the request that the response belongs to, or the one that is being executed. That nothing is missed
is seen by how accesses are put together: failing as a response does (`Access.FailsAt`) is closed
under going on, looking at the response and catching failures, and sessions are made of a few of
them (`Session.FailsAt`).

**So every failure of a single request or of a response has a request, and it is the right one**
(`loci_of_failures`): executing a request fails as that request, whatever became of a token;
whatever is done with a response fails as the request of the response; asking for the next page
fails as either, and as the further request exactly if that has been executed.
-/

set_option autoImplicit false

namespace OData

open Response (Reading)

namespace Access

variable {α β : Type} {l : Locus}

/-- On a response to this request, every failure belongs to it. -/
def FailsAt (l : Locus) (x : Access α) : Prop :=
  ∀ r j, r.locus = l → (on r j x).1.2.locus = l ∧ ∀ f, (on r j x).1.1 = .error f → f.locus = some l

/-! ## Putting accesses together -/

theorem failsAt_pure (a : α) : FailsAt l (pure a : Access α) := by
  intro r j hr
  exact ⟨hr, fun f hf => nomatch hf⟩

theorem failsAt_fail {f : Failure} (hf : f.locus = none) : FailsAt l (fail f : Access α) := by
  intro r j hr
  rw [on_fail]
  refine ⟨hr, ?_⟩
  rintro g ⟨⟩
  rw [Failure.orAtRequest, hf, hr]
  rfl

theorem FailsAt.bind {x : Access α} {g : α → Access β} (hx : FailsAt l x)
    (hg : ∀ a, FailsAt l (g a)) : FailsAt l (x >>= g) := by
  intro r j hr
  obtain ⟨hr', hfails⟩ := hx r j hr
  rw [on_bind]
  rcases hrun : on r j x with ⟨⟨f | a, r'⟩, j'⟩
  · rw [hrun] at hr' hfails
    refine ⟨hr', ?_⟩
    rintro g ⟨⟩
    exact hfails f rfl
  · rw [hrun] at hr'
    exact hg a r' j' hr'

theorem failsAt_get {g : Response → Access β} (hg : ∀ r, FailsAt l (g r)) :
    FailsAt l (get >>= g) := by
  intro r j hr
  rw [on_get_bind]
  exact hg r r j hr

theorem FailsAt.tryCatch {x : Access α} {g : Failure → Access α} (hx : FailsAt l x)
    (hg : ∀ f, FailsAt l (g f)) : FailsAt l (tryCatch x g) := by
  intro r j hr
  obtain ⟨hr', -⟩ := hx r j hr
  rw [on_tryCatch]
  rcases hrun : on r j x with ⟨⟨f | a, r'⟩, j'⟩
  · rw [hrun] at hr'
    exact hg f r' j' hr'
  · rw [hrun] at hr'
    exact ⟨hr', fun f hf => nomatch hf⟩

theorem failsAt_pull (s : Source) (n : Nat) : FailsAt l (pull s n) := by
  intro r j hr
  exact ⟨hr, fun f hf => nomatch hf⟩

theorem failsAt_source : FailsAt l source := by
  intro r j hr
  rw [on_source]
  refine ⟨hr, ?_⟩
  intro f hf
  dsimp only at hf
  split at hf
  · cases hf
  · cases hf
    exact congrArg some hr

theorem failsAt_entity : FailsAt l entity := by
  refine failsAt_get ?_
  intro r
  split
  · exact failsAt_pure _
  · exact failsAt_fail rfl

theorem failsAt_wrongShape : FailsAt l (wrongShape : Access α) :=
  failsAt_get fun _ => failsAt_fail rfl

theorem failsAt_invalidJson : FailsAt l (invalidJson : Access α) :=
  failsAt_get fun _ => failsAt_fail rfl

/-! ## Readings -/

theorem failsAt_bytes : FailsAt l bytes := by
  refine failsAt_source.bind ?_
  intro s
  refine (failsAt_pull _ _).bind ?_
  intro _
  split
  · exact failsAt_fail rfl
  · exact failsAt_pure _

theorem failsAt_text : FailsAt l text := failsAt_bytes.bind fun _ => failsAt_pure _

theorem failsAt_document : FailsAt l document := by
  refine failsAt_entity.bind fun _ => failsAt_source.bind ?_
  intro s
  refine (failsAt_pull _ _).bind ?_
  intro _
  split
  · exact failsAt_pure _
  · exact failsAt_invalidJson

theorem failsAt_object : FailsAt l object := by
  refine failsAt_document.bind fun root => failsAt_get ?_
  intro r
  split
  · split
    · exact failsAt_pure _
    · exact failsAt_wrongShape
  · exact failsAt_wrongShape

theorem failsAt_collection : FailsAt l collection := by
  refine failsAt_document.bind fun root => failsAt_get ?_
  intro r
  split
  · exact failsAt_pure _
  · exact failsAt_wrongShape

section

variable {ρ : Type} (schema : Json.Schema ρ) (shape : Json.Shape ρ)

theorem failsAt_entityAs : FailsAt l (entityAs schema shape) := by
  refine failsAt_object.bind ?_
  intro v
  split
  · exact failsAt_pure _
  · exact failsAt_fail rfl

theorem failsAt_fitPrimitive (v : Json) :
    FailsAt l (if v.isNull then fail (.unreadable .nullPrimitive)
      else match Json.fit? schema shape v with
        | some v => pure v
        | none => fail (.unreadable .unfitPrimitive) : Access Json) := by
  split
  · exact failsAt_fail rfl
  · split
    · exact failsAt_pure _
    · exact failsAt_fail rfl

theorem failsAt_primitiveAs : FailsAt l (primitiveAs schema shape) := by
  have hfit := failsAt_fitPrimitive (l := l) schema shape
  refine failsAt_get ?_
  intro r
  dsimp only
  split
  · exact failsAt_entity.bind fun _ => failsAt_text.bind fun _ => (failsAt_pure _).bind hfit
  · refine failsAt_document.bind ?_
    intro root
    split
    · exact (failsAt_pure _).bind hfit
    · exact failsAt_wrongShape.bind hfit

theorem failsAt_listAs : FailsAt l (listAs schema shape) := by
  refine failsAt_collection.bind ?_
  intro items
  split
  · exact failsAt_pure _
  · exact failsAt_get fun _ => failsAt_fail rfl

end

theorem failsAt_inlineCount : FailsAt l inlineCount := by
  refine failsAt_document.bind fun root => failsAt_get ?_
  intro r
  dsimp only
  split
  · exact failsAt_pure _
  · exact failsAt_fail rfl

/-- The number of the elements, once they have been handed out. -/
theorem failsAt_count (reading : Json.Reading) :
    FailsAt l (match reading.outcome with
      | some (.count (some n)) => return n
      | some _ => wrongShape
      | none => invalidJson : Access Nat) := by
  split
  · exact failsAt_pure _
  · exact failsAt_wrongShape
  · exact failsAt_invalidJson

theorem failsAt_nextLink : FailsAt l nextLink :=
  failsAt_document.bind fun _ => failsAt_get fun _ => failsAt_pure _

theorem failsAt_deltaLink : FailsAt l deltaLink := by
  refine failsAt_get ?_
  intro r
  split
  · exact failsAt_pure _
  · exact failsAt_document.bind fun _ => failsAt_pure _

/-- What went wrong with the body while its health was checked is no failure of the check. -/
theorem failsAt_healthy : FailsAt l healthy := by
  refine failsAt_get ?_
  intro r
  split
  · exact failsAt_pure _
  · have hfail : ∀ body, FailsAt l (fail (r.unhealthy body) : Access Unit) := fun body =>
      failsAt_fail (unhealthy_locus r body)
    dsimp only
    split
    · exact ((failsAt_bytes.bind fun _ => failsAt_pure _).tryCatch fun _ => failsAt_pure _).bind
        hfail
    · exact (failsAt_pure _).bind hfail

theorem failsAt_close : FailsAt l close := by
  intro r j hr
  cases hc : r.closed with
  | true =>
    rw [Response.on_close_of_closed hc]
    exact ⟨hr, fun f hf => nomatch hf⟩
  | false =>
    obtain ⟨broke, hclose, -⟩ := Response.on_close_of_open hc j
    rw [hclose]
    refine ⟨hr, ?_⟩
    intro f hf
    cases broke with
    | false => cases hf
    | true =>
      cases hf
      exact congrArg some hr

theorem failsAt_nextRequest : FailsAt l nextRequest := by
  refine failsAt_nextLink.bind ?_
  intro link?
  split
  · exact failsAt_pure _
  · refine failsAt_get ?_
    intro r
    split
    · exact failsAt_fail rfl
    · split
      · exact failsAt_pure _
      · exact failsAt_fail rfl

end Access

namespace Response.Reading

variable {ρ : Type} (schema : Json.Schema ρ)

/-- What comes of a reading is this failure. -/
def FailsWith : (d : Reading ρ) → d.Result → Failure → Prop
  | bytes, x, f | text, x, f | object, x, f | entityAs _, x, f | primitiveAs _, x, f
  | collection, x, f | listAs _, x, f | inlineCount, x, f | nextLink, x, f | deltaLink, x, f
  | healthy, x, f => x = .error f
  | elements _, x, f => x.2 = .error f

/-- Elements are handed out before it is known whether they can be counted, which may fail too. -/
theorem locus_of_elements (shape : Json.Shape ρ) (r : Response) (j : Journal) {f : Failure}
    (hf : (Visit.on r j (Visit.elements schema shape)).1.1.2 = .error f) :
    f.locus = some r.locus := by
  have hsource : Access.FailsAt r.locus (Access.entity >>= fun _ => Access.source) :=
    Access.failsAt_entity.bind fun _ => Access.failsAt_source
  have hvisit : Visit.on r j (Access.entity >>= fun _ => Access.source : Access Source).run =
      Access.on r j (Access.entity >>= fun _ => Access.source) := rfl
  obtain ⟨hr', hfails⟩ := hsource r j rfl
  unfold Visit.elements at hf
  rw [Visit.on_bind, hvisit] at hf
  rcases hrun : Access.on r j (Access.entity >>= fun _ => Access.source) with ⟨⟨g | s, r'⟩, j'⟩
  · rw [hrun] at hf hfails
    cases hf
    exact hfails f rfl
  · rw [hrun] at hf hr'
    exact (Access.failsAt_count _ r' _ hr').2 f hf

/-- Whatever fails in reading a response belongs to its request. -/
theorem locus_of_visit (d : Reading ρ) (r : Response) (j : Journal) {f : Failure}
    (hf : d.FailsWith (Visit.on r j (d.visit schema)).1.1 f) : f.locus = some r.locus := by
  cases d with
  | bytes => exact (Access.failsAt_bytes r j rfl).2 f hf
  | text => exact (Access.failsAt_text r j rfl).2 f hf
  | object => exact (Access.failsAt_object r j rfl).2 f hf
  | entityAs shape => exact (Access.failsAt_entityAs schema shape r j rfl).2 f hf
  | primitiveAs shape => exact (Access.failsAt_primitiveAs schema shape r j rfl).2 f hf
  | collection => exact (Access.failsAt_collection r j rfl).2 f hf
  | listAs shape => exact (Access.failsAt_listAs schema shape r j rfl).2 f hf
  | inlineCount => exact (Access.failsAt_inlineCount r j rfl).2 f hf
  | nextLink => exact (Access.failsAt_nextLink r j rfl).2 f hf
  | deltaLink => exact (Access.failsAt_deltaLink r j rfl).2 f hf
  | healthy => exact (Access.failsAt_healthy r j rfl).2 f hf
  | elements shape => exact locus_of_elements schema shape r j hf

end Response.Reading

/-! ## Executing -/

namespace Session

variable {α : Type} {l : Locus}

/-- Every failure belongs to this request. -/
def FailsAt (l : Locus) (x : Session (Except Failure α)) : Prop :=
  ∀ n n' f, x.run n = (.error f, n') → f.locus = some l

/-- A call that fails, or that is answered with a failing status, fails as the request for it. -/
theorem failsAt_call (listeners : List Listener) (c : Call) {made : Answer → Response}
    (hmade : ∀ a, (made a).locus = l) : FailsAt l (do
      match ← call listeners l c with
      | .error f => return .error f
      | .ok a => requireHealthy (made a)) := by
  intro n n' f h
  rw [StateT.run_bind, run_call] at h
  cases hreply : n.replyTo c with
  | error fault =>
    rw [hreply] at h
    cases h
    rfl
  | ok a =>
    rw [hreply] at h
    obtain ⟨body, hrun⟩ := run_requireHealthy_eq (made a)
    obtain ⟨k, hrun⟩ := hrun (n.afterCall listeners c)
    replace h : (requireHealthy (made a)).run (n.afterCall listeners c) = (.error f, n') := h
    rw [hrun] at h
    split at h
    · cases h
    · cases h
      exact congrArg some (hmade a)

end Session

/-- What is remembered of a handshake does not change to which request a failure belongs. -/
theorem Handshake.failsAt {α : Type} {l : Locus} {main : Headers → Session (Except Failure α)}
    (hmain : ∀ headers, Session.FailsAt l (main headers)) (t : TokenSource) (servicePath : String)
    (headers : Headers) {n n' : Network} {f : Failure} {headers' : Headers}
    (h : (run t servicePath headers main).run n = ((.error f, headers'), n')) :
    f.locus = some l := by
  cases hneeded : isNeeded t headers with
  | false =>
    rw [run_of_not_needed main hneeded] at h
    rcases hrun : (main headers).run n with ⟨outcome, n₁⟩
    rw [hrun] at h
    cases h
    exact hmain headers _ _ _ hrun
  | true =>
    rcases hretrieve : (t.retrieve servicePath headers).run n with ⟨earlier | token, n₁⟩
    · rw [run_of_no_token main hneeded hretrieve] at h
      rcases hrun : (main headers).run n₁ with ⟨f' | a, n₂⟩
      · rw [hrun] at h
        cases h
        exact hmain headers _ _ f' hrun
      · rw [hrun] at h
        cases h
    · rw [run_of_token main hneeded hretrieve] at h
      rcases hrun : (main (headers.withToken (some token))).run n₁ with ⟨outcome, n₂⟩
      rw [hrun] at h
      cases h
      exact hmain _ _ _ _ hrun

namespace Request

theorem locus_of_uri {q : Request} {e : Escaping} {f : Failure} (h : q.uri e = .error f) :
    f.locus = none := by
  unfold uri Context.link at h
  split at h
  · cases h
  · cases h
    rfl

theorem failsAt_sendPrepared (q : Request) (uri : String) :
    Session.FailsAt q.locus (q.sendPrepared uri) := by
  have hsend : ∀ headers, Session.FailsAt q.locus (q.sendWith uri headers) := fun headers =>
    Session.failsAt_call _ _ fun _ => rfl
  intro n n' f h
  unfold sendPrepared at h
  dsimp only at h
  split at h
  · rcases hrun : (Handshake.run q.context.tokens q.context.servicePath q.sentHeaders
      (q.sendWith uri)).run n with ⟨⟨outcome, headers⟩, n₁⟩
    rw [StateT.run_bind, hrun] at h
    cases h
    exact Handshake.failsAt hsend _ _ _ hrun
  · exact hsend _ _ _ _ h

/-- **What fails in executing a request belongs to it.** -/
theorem locus_of_execute {q : Request} {n n' : Network} {f : Failure}
    (h : q.execute.run n = (.error f, n')) : f.locus = some q.locus := by
  rw [run_execute] at h
  cases huri : q.uri .regular with
  | error g =>
    rw [huri] at h
    cases h
    rw [Failure.orAtRequest, locus_of_uri huri]
    rfl
  | ok uri =>
    rw [huri] at h
    dsimp only at h
    rcases hrun : (q.sendPrepared uri).run (n.record (q.warnings.map .warned)) with ⟨outcome, n₁⟩
    rw [hrun] at h
    cases h
    exact q.failsAt_sendPrepared uri _ _ _ hrun

end Request

/-! ## Further pages -/

namespace Response

variable {r : Response}

theorem locus_of_foundRequest {f : Failure} (h : r.foundRequest = .error f) :
    f.locus = some r.locus := by
  obtain ⟨k, hrun⟩ := r.on_nextRequest .empty
  refine (Access.failsAt_nextRequest r .empty rfl).2 f ?_
  rw [hrun]
  exact h

/-- Asking for the next page fails as the response, or as the further request that was executed. -/
theorem locus_of_nextPage {r' : Response} {n n' : Network} {f : Failure}
    (h : r.nextPage.run n = ((.error f, r'), n')) :
    f.locus = some r.locus ∨ ∃ q n₁, r.foundRequest = .ok (some q) ∧
      q.execute.run n₁ = (.error f, n') ∧ f.locus = some q.locus := by
  obtain ⟨k, hrun⟩ := r.run_nextPage n
  rw [hrun] at h
  split at h
  · next g hfound =>
    cases h
    exact .inl (locus_of_foundRequest hfound)
  · cases h
    exact .inl rfl
  · next q hfound =>
    rcases hexec : q.execute.run (n.pulling k) with ⟨outcome, n₁⟩
    rw [hexec] at h
    cases h
    exact .inr ⟨q, _, hfound, hexec, Request.locus_of_execute hexec⟩

end Response

/-- **Every failure says to which request it belongs.** What fails in executing a request has its
method, its URI as shown and its protocol, and no Content-ID. Whatever state a response is in, what
fails in any access to its body, any reading, the check of its health or closing it belongs to the
request of the response. Asking for the next page fails so as well, unless a further request was
executed: then its failure belongs to that one. -/
theorem loci_of_failures {ρ : Type} (schema : Json.Schema ρ) :
    (∀ (q : Request) (n n' : Network) (f : Failure), q.execute.run n = (.error f, n') →
      f.locus = some ⟨q.method, q.displayUri, q.protocol, none⟩) ∧
    (∀ (r : Response) (j : Journal) (f : Failure),
      (∀ d : Reading ρ, d.FailsWith (Visit.on r j (d.visit schema)).1.1 f →
        f.locus = some r.locus) ∧
      ((Access.on r j Access.source).1.1 = .error f → f.locus = some r.locus) ∧
      ((Access.on r j Access.close).1.1 = .error f → f.locus = some r.locus)) ∧
    ∀ (r r' : Response) (n n' : Network) (f : Failure), r.nextPage.run n = ((.error f, r'), n') →
      f.locus = some r.locus ∨ ∃ q n₁, r.foundRequest = .ok (some q) ∧
        q.execute.run n₁ = (.error f, n') ∧ f.locus = some q.locus := by
  refine ⟨fun q n n' f h => Request.locus_of_execute h, ?_, fun r r' n n' f h =>
    Response.locus_of_nextPage h⟩
  intro r j f
  refine ⟨fun d hd => d.locus_of_visit schema r j hd, ?_, ?_⟩
  · exact (Access.failsAt_source r j rfl).2 f
  · exact (Access.failsAt_close r j rfl).2 f

def readPerson : Request := .of "/svc" (.of "People") .v4 (.read "")

/-- A response to it whose stream breaks off, and which nobody buffers. -/
def brokenReply : Response :=
  .of (some { readPerson with context := { readPerson.context with buffering := false } })
    readPerson.locus ⟨200, "OK", .empty, some ⟨[], true, true⟩⟩ true

/-- A request without a reply, and all ways to get at the content of a response that has none. -/
theorem loci_of_brokenReply :
    (∃ f n, readPerson.execute.run (.scripted []) = (.error f, n) ∧
      f.locus = some ⟨.get, "/svc/People", .v4, none⟩) ∧
    (∃ f, (Access.on brokenReply .empty Access.bytes).1.1 = .error f ∧
      f.locus = some ⟨.get, "/svc/People", .v4, none⟩) ∧
    (∃ f, (Access.on brokenReply .empty Access.close).1.1 = .error f ∧
      f.locus = some ⟨.get, "/svc/People", .v4, none⟩) ∧
    ∃ f r n, brokenReply.nextPage.run (.scripted []) = ((.error f, r), n) ∧
      f.locus = some ⟨.get, "/svc/People", .v4, none⟩ := by
  obtain ⟨hexecute, hresponse, hnext⟩ := loci_of_failures Json.noRecords
  have hshown : readPerson.locus = ⟨.get, "/svc/People", .v4, none⟩ := by decide +kernel
  refine ⟨?_, ?_, ?_, ?_⟩
  · rcases hrun : readPerson.execute.run (.scripted []) with ⟨f | r, n⟩
    · exact ⟨f, n, rfl, (hexecute _ _ _ _ hrun).trans (congrArg some hshown)⟩
    · obtain ⟨a, hreplies, -⟩ := Request.execute_eq_ok rfl hrun
      cases hreplies
  · obtain ⟨f, hf⟩ : ∃ f, (Access.on brokenReply .empty Access.bytes).1.1 = .error f := ⟨_, rfl⟩
    exact ⟨f, hf, ((hresponse _ _ f).1 .bytes hf).trans (congrArg some hshown)⟩
  · obtain ⟨f, hf⟩ : ∃ f, (Access.on brokenReply .empty Access.close).1.1 = .error f := ⟨_, rfl⟩
    exact ⟨f, hf, ((hresponse _ _ f).2.2 hf).trans (congrArg some hshown)⟩
  · have hnone : brokenReply.foundRequest.toOption.isNone = true := by decide +kernel
    obtain ⟨k, hrun⟩ := brokenReply.run_nextPage (.scripted [])
    cases hfound : brokenReply.foundRequest with
    | ok q? =>
      rw [hfound] at hnone
      cases hnone
    | error f =>
      rw [hfound] at hrun
      refine ⟨f, _, _, hrun, ?_⟩
      rcases hnext _ _ _ _ f hrun with hl | ⟨q, -, hq, -⟩
      · exact hl.trans (congrArg some hshown)
      · rw [hfound] at hq
        cases hq

end OData
