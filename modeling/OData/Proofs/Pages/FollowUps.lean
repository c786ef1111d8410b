import OData.Proofs.Pages
import OData.Proofs.Request.Reads
import OData.Proofs.Request.Uri

/-!
# The calls for further pages

Each further page is asked for with a request that is built from the one that its link was found
with. What all of them have in common with the first request is kept by every step
(`Request.ReadsLike`), whether the caller asks for a next page himself or has a walk do it
(`Pages.Reached`). **So the call for a further page is the first call with the query of the link in
place of its own** (`Pages.asks_of_reached`): same path, same headers, no body and no call for a
token before it. If that query is not escaped, nothing is sent.
-/

set_option autoImplicit false

namespace OData

open Access

/-! ## Requests -/

/-- The query of a link; one without a query has an empty one. -/
def Link.queryOf (link : String) : List Char := (Link.query? link.toList).getD []

namespace Request

/-- A read of the same resource with the same headers. The query may be another. -/
structure ReadsLike (q q' : Request) : Prop where
  isRead : q'.operation.isRead = true
  servicePath : q'.context.servicePath = q.context.servicePath
  headers : q'.context.headers = q.context.headers
  path : q'.path = q.path

variable {q q' : Request}

namespace ReadsLike

theorem refl (h : q.operation.isRead = true) : q.ReadsLike q := ⟨h, rfl, rfl, rfl⟩

theorem pathText (h : q.ReadsLike q') (hq : q.operation.isRead = true) (e : Escaping) :
    q'.pathText e = q.pathText e := by
  unfold Request.pathText pieces
  rw [(of_isRead h.isRead).1, (of_isRead hq).1, h.servicePath, h.path]

theorem follow (h : q.ReadsLike q') (link : String) : q.ReadsLike (q'.follow link) :=
  ⟨rfl, h.servicePath, h.headers, h.path⟩

theorem executed (h : q.ReadsLike q') : q.ReadsLike (q'.executed q'.sentHeaders) := by
  refine ⟨h.isRead, h.servicePath, ?_, h.path⟩
  rw [← h.headers]
  exact (of_isRead h.isRead).2.1

end ReadsLike

/-- The query of a follow-up is that of the link. -/
theorem query_follow (q : Request) (link : String) (e : Escaping) :
    (q.follow link).query e = Link.queryOf link := by
  have hown : (q.follow link).specificQuery e = Link.queryOf link :=
    String.toList_ofList
  have hoptions : (q.follow link).context.options = [] := rfl
  rw [query_eq, queryOptions, hown, hoptions, List.map_nil, List.append_nil]
  split
  · next hempty =>
    rw [hempty]
    rfl
  · rfl

/-- The URI of a follow-up: the path of the first URI and the query of the link. -/
theorem ReadsLike.uri_follow (h : q.ReadsLike q') (hq : q.operation.isRead = true) {uri : String}
    (huri : q.uri .regular = .ok uri) (link : String) :
    '?' ∉ Link.pathOf uri.toList ∧ (q'.follow link).uri .regular =
      if Link.isEscapedQuery (Link.queryOf link) then .ok (String.ofList (Link.pathOf uri.toList ++
        if Link.queryOf link = [] then [] else '?' :: Link.queryOf link))
      else .error (.construction (.unescapedQuery (String.ofList (Link.queryOf link)))) := by
  have hno := no_question_pathText (e := .regular) (by decide) q
  have hpath : Link.pathOf uri.toList = q.pathText .regular := by
    rw [(of_uri_eq_ok (by decide) huri).2, Link.pathOf_append hno]
  rw [hpath, ← (h.follow link).pathText hq, ← query_follow q' link .regular]
  rw [← (h.follow link).pathText hq] at hno
  exact ⟨hno, uri_eq (by decide) _⟩

end Request

namespace Pages

/-! ## Calls -/

/-- A call that differs from the first one in its query at most. -/
structure FollowsUp (first : Call) (query : List Char) (c : Call) : Prop where
  method : c.method = .get
  headers : c.headers = first.headers
  body : c.body = none
  path : Link.pathOf c.uri.toList = Link.pathOf first.uri.toList
  rawQuery : Link.query? c.uri.toList = if query = [] then none else some query
  /-- There is no question mark without a query, and nothing behind the query. -/
  uri : c.uri.toList = Link.pathOf c.uri.toList ++ if query = [] then [] else '?' :: query

/-- What is seen of asking for the page behind a link: the calls before and after, and what comes of
it. -/
structure AsksFor (c₀ : Call) (link? : Except Failure (Option String)) (before after : List Call)
    (item : Option (Except Failure Response)) : Prop where
  /-- Without a link, nothing is sent. -/
  silent : (∀ link, link? ≠ .ok (some link)) → after = before
  /-- A link with an escaped query is one call. -/
  calls : ∀ link, link? = .ok (some link) → Link.isEscapedQuery (Link.queryOf link) = true →
    ∃ c, after = before ++ [c] ∧ FollowsUp c₀ (Link.queryOf link) c
  /-- For any other link, nothing is sent and there is no request. -/
  refused : ∀ link, link? = .ok (some link) → Link.isEscapedQuery (Link.queryOf link) = false →
    after = before ∧ ∃ f, item = some (.error f) ∧
      f.cause = .construction (.unescapedQuery (String.ofList (Link.queryOf link)))

variable {c₀ : Call} {link? : Except Failure (Option String)} {before after : List Call}

theorem asksFor_of_no_link (h : ∀ link, link? ≠ .ok (some link))
    (item : Option (Except Failure Response)) : AsksFor c₀ link? before before item :=
  ⟨fun _ => rfl, fun link hlink => absurd hlink (h link), fun link hlink => absurd hlink (h link)⟩

/-- The page that comes of it may be given out as it is afterwards. -/
theorem AsksFor.of_ok {r page : Response} (h : AsksFor c₀ link? before after (some (.ok r))) :
    AsksFor c₀ link? before after (some (.ok page)) := by
  refine ⟨h.silent, h.calls, ?_⟩
  intro link hlink hunescaped
  obtain ⟨-, f, hf, -⟩ := h.refused link hlink hunescaped
  cases hf

/-- The call of a follow-up, if the query of the link is escaped. -/
theorem followsUp_callAt {q q' : Request} (hq : q.operation.isRead = true) (hlike : q.ReadsLike q')
    {path query : List Char} {uri : String} (hpath : '?' ∉ path)
    (huri : Link.pathOf uri.toList = path) (hescaped : Link.isEscapedQuery query = true) :
    FollowsUp (q.callAt uri q.sentHeaders) query
      (q'.callAt (String.ofList (path ++ if query = [] then [] else '?' :: query))
        q'.sentHeaders) := by
  obtain ⟨-, hsent, hmethod, hbody, -⟩ := Request.of_isRead hlike.isRead
  have hcut : Link.pathOf (String.ofList (path ++ if query = [] then [] else '?' :: query)).toList =
      path := by
    rw [String.toList_ofList, Link.pathOf_append hpath]
  refine ⟨hmethod, ?_, hbody, hcut.trans huri.symm, ?_, ?_⟩
  · show q'.sentHeaders = q.sentHeaders
    rw [hsent, hlike.headers, (Request.of_isRead hq).2.1]
  · show Link.query? (String.ofList _).toList = _
    rw [String.toList_ofList, Link.query?_append hpath hescaped]
  · show (String.ofList _).toList = Link.pathOf (String.ofList _).toList ++ _
    rw [hcut, String.toList_ofList]

/-- Executing the request for the page behind a link. -/
theorem asksFor_execute {q q' : Request} (hq : q.operation.isRead = true) (hlike : q.ReadsLike q')
    {uri : String} (huri : q.uri .regular = .ok uri) (link : String) {n n' : Network}
    {outcome : Except Failure Response}
    (hexec : (q'.follow link).execute.run n = (outcome, n')) :
    AsksFor (q.callAt uri q.sentHeaders) (.ok (some link)) n.journal.calls n'.journal.calls
      (some outcome) := by
  obtain ⟨outcome', hfailed, hruns⟩ :=
    Request.execute_of_replies (q := q'.follow link) rfl n.replies
  obtain ⟨n'', hrun, -, hcalls⟩ := hruns n rfl
  rw [hexec] at hrun
  cases hrun
  obtain ⟨hno, huri'⟩ := hlike.uri_follow hq huri link
  unfold Request.ownCalls at hcalls
  constructor
  · intro hnone
    exact absurd rfl (hnone link)
  · intro link' hlink hescaped
    cases hlink
    rw [if_pos hescaped] at huri'
    rw [huri'] at hcalls
    exact ⟨_, hcalls, followsUp_callAt hq (hlike.follow link) hno rfl hescaped⟩
  · intro link' hlink hunescaped
    cases hlink
    rw [hunescaped, if_neg Bool.false_ne_true] at huri'
    rw [huri'] at hcalls
    exact ⟨hcalls.trans (List.append_nil _), _, congrArg some (hfailed _ huri'), rfl⟩

/-! ## Runs -/

/-- The page that the next step of a walk is about, as it came. -/
def arrival (p : Pages) (n : Network) : Option Response :=
  match p with
  | first r => some r
  | follow q => (q.execute.run n).1.toOption
  | failed _ | done => none

theorem arrival_follow (q : Request) (n : Network) :
    (follow q).arrival n = (q.execute.run n).1.toOption := rfl

/-- What a caller can come by who has a response: the pages that he gets by asking for the next one
or from a walk, each of them as a walk that starts with it, and the walks that he has under way. In
between he may read the pages in any way, and anything may happen on the network. -/
inductive Reached (r₀ : Response) : Pages → Prop where
  | start : Reached r₀ (first r₀)
  | read {r r' : Response} (before : Reached r₀ (first r)) (same : r'.core = r.core) :
      Reached r₀ (first r')
  | nextPage {r r' next : Response} {n n' : Network} (before : Reached r₀ (first r))
      (ask : r.nextPage.run n = ((.ok next, r'), n')) : Reached r₀ (first next)
  | onward {p p' : Pages} {n n' : Network} {item : Option (Except Failure Response)}
      (before : Reached r₀ p) (step : p.next.run n = ((item, p'), n')) : Reached r₀ p'
  | given {p p' : Pages} {n n' : Network} {page : Response} (before : Reached r₀ p)
      (step : p.next.run n = ((some (.ok page), p'), n')) : Reached r₀ (first page)

/-- A step either gives a page and goes on from it, or it gives none and the walk is over. -/
theorem next_cases {p p' : Pages} {n n' : Network} {item : Option (Except Failure Response)}
    (step : p.next.run n = ((item, p'), n')) :
    (∃ r, p.arrival n = some r ∧ item = some (.ok r.lookedAt) ∧ p' = onward r) ∨
      p' = done ∧ ∀ page, item ≠ some (.ok page) := by
  cases p with
  | first r =>
    obtain ⟨k, hnext⟩ := run_next_first r n
    rw [hnext] at step
    cases step
    exact .inl ⟨r, rfl, rfl, rfl⟩
  | follow q =>
    obtain ⟨k, hnext⟩ := run_next_follow q n
    rw [hnext] at step
    rw [arrival_follow]
    rcases hexec : q.execute.run n with ⟨f | r, m⟩
    · rw [hexec] at step
      cases step
      exact .inr ⟨rfl, by rintro page ⟨⟩⟩
    · rw [hexec] at step
      cases step
      exact .inl ⟨r, rfl, rfl, rfl⟩
  | failed f =>
    cases step
    exact .inr ⟨rfl, by rintro page ⟨⟩⟩
  | done =>
    cases step
    exact .inr ⟨rfl, by rintro page ⟨⟩⟩

/-- A response to a read like `q`, from a transport. -/
def Answers (q : Request) (r : Response) : Prop :=
  ∃ q', r.request = some q' ∧ q.ReadsLike q' ∧ r.online = true

/-- A walk whose further pages are asked for with reads like `q`. -/
def Continues (q : Request) : Pages → Prop
  | first r => Answers q r
  | follow q' => q.ReadsLike q'
  | failed _ | done => True

variable {q : Request} {r : Response}

theorem Answers.congr (h : Answers q r) {r' : Response} (hcore : r'.core = r.core) :
    Answers q r' := by
  obtain ⟨hrequest, -, honline⟩ := Response.of_core_eq hcore
  unfold Answers
  rw [hrequest, honline]
  exact h

theorem answers_of_execute {q' : Request} (h : q.ReadsLike q') {n n' : Network}
    (hexec : q'.execute.run n = (.ok r, n')) : Answers q r := by
  obtain ⟨a, -, rfl⟩ := q'.execute_eq_ok (Request.of_isRead h.isRead).2.2.2.2 hexec
  exact ⟨_, rfl, h.executed, rfl⟩

theorem Answers.found (h : Answers q r) {f : Request} (hfound : r.foundRequest = .ok (some f)) :
    q.ReadsLike f := by
  obtain ⟨q', hq', hlike, -⟩ := h
  obtain ⟨q'', link, -, hq'', rfl⟩ := Response.foundRequest_eq_some hfound
  rw [hq'] at hq''
  cases hq''
  exact hlike.follow link

theorem Answers.onward (h : Answers q r) : Continues q (onward r) := by
  unfold Pages.onward
  cases hfound : r.foundRequest with
  | error f => trivial
  | ok request? =>
    cases request? with
    | none => trivial
    | some f => exact h.found hfound

theorem Continues.arrival {p : Pages} (h : Continues q p) {n : Network}
    (hr : p.arrival n = some r) : Answers q r := by
  cases p with
  | first r' =>
    cases hr
    exact h
  | follow q' =>
    rw [arrival_follow] at hr
    rcases hexec : q'.execute.run n with ⟨f | r', m⟩
    · rw [hexec] at hr
      cases hr
    · rw [hexec] at hr
      cases hr
      exact answers_of_execute h hexec
  | failed f => cases hr
  | done => cases hr

/-- Whatever the caller comes by, further pages are asked for like the first one. -/
theorem continues_of_reached {r₀ : Response} (h₀ : Answers q r₀) {p : Pages}
    (h : Reached r₀ p) : Continues q p := by
  induction h with
  | start => exact h₀
  | read before same ih => exact Answers.congr ih same
  | nextPage before ask ih =>
    obtain ⟨-, k, ⟨f, -, hout, -⟩ | ⟨-, hout, -⟩ | ⟨f, hfound, hexec⟩⟩ :=
      Response.nextPage_cases ask
    · cases hout
    · cases hout
    · exact answers_of_execute (Answers.found ih hfound) hexec
  | onward before step ih =>
    obtain ⟨r, hr, -, rfl⟩ | ⟨rfl, -⟩ := next_cases step
    · exact (ih.arrival hr).onward
    · trivial
  | given before step ih =>
    obtain ⟨r, hr, hpage, -⟩ | ⟨-, hnone⟩ := next_cases step
    · cases hpage
      exact (ih.arrival hr).congr r.core_lookedAt
    · exact absurd rfl (hnone _)

/-- Such a response either has a link, and the request for it is found, or it has neither. -/
theorem Answers.found_cases (h : Answers q r) :
    (∃ q' link, q.ReadsLike q' ∧ r.foundLink = .ok (some link) ∧
        r.foundRequest = .ok (some (q'.follow link))) ∨
      (∀ link, r.foundLink ≠ .ok (some link)) ∧ ∀ f, r.foundRequest ≠ .ok (some f) := by
  obtain ⟨q', hq', hlike, honline⟩ := h
  rcases hlink : r.foundLink with f | _ | link
  · rw [Response.foundRequest_of_error hlink]
    exact .inr ⟨by rintro link ⟨⟩, by rintro f ⟨⟩⟩
  · rw [Response.foundRequest_of_none hlink]
    exact .inr ⟨by rintro link ⟨⟩, by rintro f ⟨⟩⟩
  · exact .inl ⟨q', link, hlike, rfl,
      Response.foundRequest_of_link hlink hq' hlike.isRead honline⟩

/-! ## What is asked for -/

variable (hq : q.operation.isRead = true) {uri : String} (huri : q.uri .regular = .ok uri)

include hq huri

theorem asksFor_nextPage (h : Answers q r) {n n' : Network} {outcome : Except Failure Response}
    {r' : Response} (ask : r.nextPage.run n = ((outcome, r'), n')) :
    AsksFor (q.callAt uri q.sentHeaders) r.foundLink n.journal.calls n'.journal.calls
      (some outcome) := by
  obtain ⟨-, k, hcases⟩ := Response.nextPage_cases ask
  obtain ⟨q', link, hlike, hlink, hfound⟩ | ⟨hlink, hnone⟩ := h.found_cases
  · rw [hfound] at hcases
    obtain ⟨f, hf, -⟩ | ⟨hf, -⟩ | ⟨f, hf, hexec⟩ := hcases
    · cases hf
    · cases hf
    · cases hf
      rw [hlink]
      exact asksFor_execute (n := n.pulling k) hq hlike huri link hexec
  · obtain ⟨f, -, -, rfl⟩ | ⟨-, -, rfl⟩ | ⟨f, hf, -⟩ := hcases
    · exact asksFor_of_no_link hlink _
    · exact asksFor_of_no_link hlink _
    · exact absurd hf (hnone f)

theorem asksFor_next (h : Answers q r) {p : Pages} {n n' : Network}
    {item : Option (Except Failure Response)} (step : (onward r).next.run n = ((item, p), n')) :
    AsksFor (q.callAt uri q.sentHeaders) r.foundLink n.journal.calls n'.journal.calls item := by
  unfold onward at step
  obtain ⟨q', link, hlike, hlink, hfound⟩ | ⟨hlink, hfound⟩ := h.found_cases
  · rw [hfound] at step
    dsimp only at step
    obtain ⟨k, hnext⟩ := run_next_follow (q'.follow link) n
    rw [hnext] at step
    rcases hexec : (q'.follow link).execute.run n with ⟨outcome, m⟩
    rw [hexec] at step
    have hasks := asksFor_execute hq hlike huri link hexec
    rw [hlink]
    cases outcome with
    | error f =>
      cases step
      exact hasks
    | ok page =>
      cases step
      exact hasks.of_ok
  · rcases hf : r.foundRequest with f | _ | f
    · rw [hf] at step
      cases step
      exact asksFor_of_no_link hlink _
    · rw [hf] at step
      cases step
      exact asksFor_of_no_link hlink _
    · exact absurd hf (hfound f)

omit huri in
/-- **Calls for further pages are the first call with another query.** Whether the caller asks for
the next page himself or a walk does it, after any pages before: if the page has a link whose query
is escaped, one call is made, with the path and the headers of the first call and the query of that
link; if it is not escaped, nothing is sent and there is no request. A walk makes no other calls.
Its pages are meant as they came; if the body is buffered, the caller finds the same link in the
page. -/
theorem asks_of_reached {n₀ n₁ : Network} {r₀ : Response}
    (hexec : q.execute.run n₀ = (.ok r₀, n₁)) :
    ∃ c₀, n₁.journal.calls = n₀.journal.calls ++ [c₀] ∧
      (∀ r n outcome r' n', Reached r₀ (first r) → r.nextPage.run n = ((outcome, r'), n') →
        AsksFor c₀ r.foundLink n.journal.calls n'.journal.calls (some outcome)) ∧
      (∀ r n item p n', (first r).next.run n = ((item, p), n') →
        n'.journal.calls = n.journal.calls) ∧
      ∀ p n item p' n' m item' p'' m', Reached r₀ p → p.next.run n = ((item, p'), n') →
        p'.next.run m = ((item', p''), m') →
        (∀ page, item = some (.ok page) → ∃ r, p.arrival n = some r ∧
          AsksFor c₀ r.foundLink m.journal.calls m'.journal.calls item' ∧
          (r.body.buffering = true →
            ∀ link?, page.foundLink = .ok link? ↔ r.foundLink = .ok link?)) ∧
        ((∀ page, item ≠ some (.ok page)) → m'.journal.calls = m.journal.calls) := by
  have hmodifies := (Request.of_isRead hq).2.2.2.2
  obtain ⟨outcome, hfailed, hruns⟩ := q.execute_of_replies hmodifies n₀.replies
  obtain ⟨n', hrun, -, hcalls⟩ := hruns n₀ rfl
  rw [hexec] at hrun
  cases hrun
  cases huri : q.uri .regular with
  | error f => cases hfailed f huri
  | ok uri =>
    have h₀ : Answers q r₀ := answers_of_execute (.refl hq) hexec
    rw [Request.ownCalls, huri] at hcalls
    refine ⟨_, hcalls, ?_, ?_, ?_⟩
    · intro r n outcome r' n' hreached ask
      exact asksFor_nextPage hq huri (continues_of_reached h₀ hreached) ask
    · intro r n item p n' step
      obtain ⟨k, hnext⟩ := run_next_first r n
      rw [hnext] at step
      cases step
      rfl
    · intro p n item p' n' m item' p'' m' hreached step step'
      obtain ⟨r, hr, rfl, rfl⟩ | ⟨rfl, hnone⟩ := next_cases step
      · have hanswers := (continues_of_reached h₀ hreached).arrival hr
        refine ⟨?_, fun h => absurd rfl (h r.lookedAt)⟩
        intro page hpage
        cases hpage
        exact ⟨r, hr, asksFor_next hq huri hanswers step',
          fun hb link? => Response.foundLink_lookedAt_eq_ok hb⟩
      · refine ⟨fun page hpage => absurd hpage (hnone page), fun _ => ?_⟩
        cases step'
        rfl

omit hq huri in
/-- The second page is asked for like the first one, with the query of its link. -/
theorem asks_of_reached_twoPages :
    ∃ r n₁ c₀ outcome r' n' c, (readPeople true).execute.run twoPages = (.ok r, n₁) ∧
      n₁.journal.calls = [c₀] ∧ r.nextPage.run n₁ = ((outcome, r'), n') ∧
      n'.journal.calls = [c₀, c] ∧ FollowsUp c₀ "$skip=1".toList c := by
  obtain ⟨n₁, hexec, -⟩ := Request.execute_of_reply (n := twoPages) rfl
    (uri_readPeople true) rfl (by decide)
  obtain ⟨c₀, hcalls, hnextPage, -⟩ := asks_of_reached rfl hexec
  have hlink := foundLink_linkingPage true
  rcases hask : ((readPeople true).responseTo (readPeople true).sentHeaders
    linkingPage.delivered).nextPage.run n₁ with ⟨⟨outcome, r'⟩, n'⟩
  obtain ⟨c, hsent, hfollows⟩ := (hnextPage _ _ _ _ _ .start hask).calls _ hlink (by decide)
  rw [hcalls] at hsent
  exact ⟨_, n₁, c₀, outcome, r', n', c, hexec, hcalls, hask, hsent, hfollows⟩

end Pages

end OData
