import OData.Pages
import OData.Proofs.Session

/-!
# The way from a page to the next

What is found in a page does not depend on when it is looked for: its next link
(`Response.foundLink`), the request for the page behind it (`Response.foundRequest`), and with that
the rest of a walk (`Pages.onward`). **If the body is buffered, looking for the link leaves it to be
found again** (`Response.foundLink_lookedAt_eq_ok`), so it makes no difference how often one looks.
-/

set_option autoImplicit false

namespace OData

open Access

namespace Response

/-- The response after its next link has been looked for. -/
def lookedAt (r : Response) : Response := if r.hasEntity then r.accessed else r

/-- What is found for the next link. -/
def foundLink (r : Response) : Except Failure (Option String) := (on r .empty nextLink).1.1

/-- What is found for the next page: the request for it, if there is a link. Only a read that has
come from a transport has further pages. -/
def foundRequest (r : Response) : Except Failure (Option Request) := do
  match ← r.foundLink with
  | none => return none
  | some link =>
    match r.request.filter (·.operation.isRead) with
    | none => throw ((Failure.construction .notPaged).atRequest r.locus)
    | some q =>
      if r.online then return some (q.follow link)
      else throw ((Failure.construction .noTransport).atRequest r.locus)

variable {r : Response}

/-- Responses that came alike belong to the same request and to the same transport. -/
theorem of_core_eq {r' : Response} (h : r'.core = r.core) :
    r'.request = r.request ∧ r'.locus = r.locus ∧ r'.online = r.online := by
  have hrequest : r'.core.request = r.core.request := by rw [h]
  have hlocus : r'.core.locus = r.core.locus := by rw [h]
  have honline : r'.core.online = r.core.online := by rw [h]
  exact ⟨hrequest, hlocus, honline⟩

theorem core_lookedAt (r : Response) : r.lookedAt.core = r.core := by
  unfold lookedAt
  split <;> rfl

/-- The link can be looked for at any time, and that pulls content at most. -/
theorem on_nextLink (r : Response) (j : Journal) :
    ∃ k, on r j nextLink = ((r.foundLink, r.lookedAt), j.pulling k) := by
  unfold foundLink lookedAt
  by_cases he : r.hasEntity = true
  · have hreads := readsOnce_nextLink (c := r.core) he
    obtain ⟨k, -, hr, hj⟩ := hreads.on_after (r := r) rfl j
    have hsame := hreads.on_congr r r rfl rfl rfl j .empty
    change (on r j nextLink).1.2 = _ at hr
    change (on r j nextLink).2 = _ at hj
    change (on r j nextLink).1.1 = (on r .empty nextLink).1.1 at hsame
    refine ⟨k, ?_⟩
    rw [if_pos he, ← hsame, ← hr, ← hj]
  · have hnone : ∀ j, on r j nextLink =
        ((.error ((Failure.unreadable (.noPayload r.protocol)).atRequest r.locus), r), j) := by
      intro j
      unfold nextLink document entity
      simp only [bind_assoc, on_get_bind, if_neg he]
      rfl
    rw [hnone, hnone, if_neg he]
    exact ⟨0, rfl⟩

theorem on_nextRequest (r : Response) (j : Journal) :
    ∃ k, on r j nextRequest = ((r.foundRequest, r.lookedAt), j.pulling k) := by
  obtain ⟨k, hlink⟩ := r.on_nextLink j
  obtain ⟨hrequest, hlocus, honline⟩ := of_core_eq r.core_lookedAt
  refine ⟨k, ?_⟩
  unfold nextRequest foundRequest
  rw [on_bind, hlink]
  cases r.foundLink with
  | error f => rfl
  | ok link? =>
    cases link? with
    | none => rfl
    | some link =>
      dsimp only
      rw [on_get_bind, hrequest, honline]
      cases r.request.filter (·.operation.isRead) with
      | none =>
        dsimp only
        rw [on_fail, hlocus]
        rfl
      | some q =>
        dsimp only
        cases r.online with
        | true => rfl
        | false =>
          rw [if_neg Bool.false_ne_true, on_fail, hlocus]
          rfl

/-- If the body is buffered, what is found for the link is found again. -/
theorem foundLink_lookedAt_eq_ok (hb : r.body.buffering = true) {link? : Option String} :
    r.lookedAt.foundLink = .ok link? ↔ r.foundLink = .ok link? := by
  by_cases he : r.hasEntity = true
  · have hreads := readsOnce_nextLink (c := r.core) he
    have hrefused : ∀ {r' : Response}, r'.core = r.core → (∀ s, r'.body.offer ≠ .ok s) →
        r'.foundLink ≠ .ok link? := by
      intro r' hr' hnone h
      cases ho : r'.body.offer with
      | ok s => exact hnone s ho
      | error e =>
        have hfailed : r'.foundLink = _ := hreads.on_refused hr' ho .empty
        rw [hfailed] at h
        cases h
    rw [lookedAt, if_pos he]
    by_cases hs : ∃ s, r.body.offer = .ok s
    · obtain ⟨s, hs⟩ := hs
      have hagain : r.accessed.body.offer = r.body.offer := by
        rw [hs]
        exact (Body.offer_accessed_eq_ok hb).mpr hs
      have hsame : r.accessed.foundLink = r.foundLink :=
        hreads.on_congr r.accessed r rfl rfl hagain .empty .empty
      rw [hsame]
    · have hnone : ∀ s, r.body.offer ≠ .ok s := fun s h => hs ⟨s, h⟩
      have hagain : ∀ s, r.accessed.body.offer ≠ .ok s := fun s h =>
        hnone s ((Body.offer_accessed_eq_ok hb).mp h)
      exact ⟨fun h => absurd h (hrefused rfl hagain), fun h => absurd h (hrefused rfl hnone)⟩
  · rw [lookedAt, if_neg he]

theorem foundRequest_of_error {f : Failure} (h : r.foundLink = .error f) :
    r.foundRequest = .error f := by
  unfold foundRequest
  rw [h]
  rfl

theorem foundRequest_of_none (h : r.foundLink = .ok none) : r.foundRequest = .ok none := by
  unfold foundRequest
  rw [h]
  rfl

/-- A link in the answer to a read is followed. -/
theorem foundRequest_of_link {link : String} (h : r.foundLink = .ok (some link)) {q : Request}
    (hq : r.request = some q) (hread : q.operation.isRead = true) (honline : r.online = true) :
    r.foundRequest = .ok (some (q.follow link)) := by
  unfold foundRequest
  rw [h, hq, Option.filter_some, if_pos hread, honline]
  rfl

theorem foundRequest_of_some {link : String} (h : r.foundLink = .ok (some link)) :
    r.foundRequest ≠ .ok none := by
  unfold foundRequest
  rw [h]
  intro hnone
  cases hq : r.request.filter (·.operation.isRead) with
  | none =>
    rw [hq] at hnone
    cases hnone
  | some q =>
    rw [hq] at hnone
    change (if r.online then Except.ok (some (q.follow link)) else _) = _ at hnone
    split at hnone <;> cases hnone

theorem foundRequest_congr {r' : Response} (hcore : r'.core = r.core)
    (hlink : r'.foundLink = r.foundLink) : r'.foundRequest = r.foundRequest := by
  obtain ⟨hrequest, hlocus, honline⟩ := of_core_eq hcore
  unfold foundRequest
  rw [hlink, hrequest, honline, hlocus]

/-- A next page is asked for like the page that links to it, and with the query of the link. -/
theorem foundRequest_eq_some {f : Request} (h : r.foundRequest = .ok (some f)) :
    ∃ q link, r.foundLink = .ok (some link) ∧ r.request = some q ∧ f = q.follow link := by
  unfold foundRequest at h
  cases hlink : r.foundLink with
  | error e =>
    rw [hlink] at h
    cases h
  | ok link? =>
    rw [hlink] at h
    cases link? with
    | none => cases h
    | some link =>
      cases hq : r.request.filter (·.operation.isRead) with
      | none =>
        rw [hq] at h
        cases h
      | some q =>
        rw [hq] at h
        change (if r.online then Except.ok (some (q.follow link)) else _) = _ at h
        split at h
        · cases h
          exact ⟨q, link, rfl, (Option.filter_eq_some_iff.mp hq).1, rfl⟩
        · cases h

/-- The next page of a page as the model takes it: the link is looked for, and a request that is
found is executed. -/
theorem run_nextPage (r : Response) (n : Network) :
    ∃ k, r.nextPage.run n =
      match r.foundRequest with
      | .error f => ((.error f, r.lookedAt), n.pulling k)
      | .ok none =>
        ((.error ((Failure.construction .lastPage).atRequest r.locus), r.lookedAt), n.pulling k)
      | .ok (some q) =>
        match q.execute.run (n.pulling k) with
        | (outcome, n') => ((outcome, r.lookedAt), n') := by
  obtain ⟨k, hrequest⟩ := r.on_nextRequest n.journal
  have hlocus := (of_core_eq r.core_lookedAt).2.1
  have hvisit : (Session.visit r nextRequest.run).run n =
      ((r.foundRequest, r.lookedAt), n.pulling k) := by
    rw [Session.run_visit, hrequest]
    rfl
  refine ⟨k, ?_⟩
  unfold nextPage
  rw [StateT.run_bind, hvisit]
  rcases r.foundRequest with f | _ | q
  · rfl
  · rw [← hlocus]
    rfl
  · rfl

/-- What may come of asking for the next page: there is a failure to find its request, or no link
for it, or the request is executed. Only then is anything sent. -/
theorem nextPage_cases {n n' : Network} {outcome : Except Failure Response} {r' : Response}
    (h : r.nextPage.run n = ((outcome, r'), n')) :
    r' = r.lookedAt ∧ ∃ k,
      ((∃ f, r.foundRequest = .error f ∧ outcome = .error f ∧ n' = n.pulling k) ∨
        (r.foundRequest = .ok none ∧ outcome.toOption = none ∧ n' = n.pulling k) ∨
        ∃ q, r.foundRequest = .ok (some q) ∧ q.execute.run (n.pulling k) = (outcome, n')) := by
  obtain ⟨k, hrun⟩ := r.run_nextPage n
  rw [h] at hrun
  rcases hfound : r.foundRequest with f | _ | q
  · rw [hfound] at hrun
    cases hrun
    exact ⟨rfl, k, .inl ⟨f, rfl, rfl, rfl⟩⟩
  · rw [hfound] at hrun
    cases hrun
    exact ⟨rfl, k, .inr (.inl ⟨rfl, rfl, rfl⟩)⟩
  · rcases hexec : q.execute.run (n.pulling k) with ⟨outcome', n''⟩
    rw [hfound] at hrun
    dsimp only at hrun
    rw [hexec] at hrun
    cases hrun
    exact ⟨rfl, k, .inr (.inr ⟨q, rfl, hexec⟩)⟩

end Response

namespace Pages

/-- How a walk goes on after a page. -/
def onward (r : Response) : Pages :=
  match r.foundRequest with
  | .ok (some q) => follow q
  | .ok none => done
  | .error f => failed f

theorem run_after (r : Response) (n : Network) :
    ∃ k, (after r).run n = ((onward r, r.lookedAt), n.pulling k) := by
  obtain ⟨k, hrequest⟩ := r.on_nextRequest n.journal
  have hvisit : (Session.visit r nextRequest.run).run n =
      ((r.foundRequest, r.lookedAt), n.pulling k) := by
    rw [Session.run_visit, hrequest]
    rfl
  refine ⟨k, ?_⟩
  unfold after onward
  rw [StateT.run_bind, hvisit]
  rcases r.foundRequest with f | _ | q <;> rfl

/-- The first page is given out as it is after its link has been looked for, and that is no call. -/
theorem run_next_first (r : Response) (n : Network) :
    ∃ k, (next (first r)).run n = ((some (.ok r.lookedAt), onward r), n.pulling k) := by
  obtain ⟨k, hafter⟩ := run_after r n
  refine ⟨k, ?_⟩
  unfold next
  rw [StateT.run_bind, hafter]
  rfl

/-- A further page is asked for and then given out like the first one. -/
theorem run_next_follow (q : Request) (n : Network) :
    ∃ k, (next (follow q)).run n =
      match q.execute.run n with
      | (.error f, n') => ((some (.error f), done), n')
      | (.ok r, n') => ((some (.ok r.lookedAt), onward r), n'.pulling k) := by
  unfold next
  rw [StateT.run_bind]
  rcases q.execute.run n with ⟨f | r, n'⟩
  · exact ⟨0, rfl⟩
  · obtain ⟨k, hafter⟩ := run_after r n'
    refine ⟨k, ?_⟩
    show ((after r >>= _) : Session _).run n' = _
    rw [StateT.run_bind, hafter]
    rfl

end Pages

end OData
