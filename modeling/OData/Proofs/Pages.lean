import OData.Proofs.Pages.Links
import OData.Proofs.Request.Execution

/-!
# The pages of a walk

Before a page is given out, its body is read for the link to the next one. That reading is an
access like any other. If the body is buffered, the page can be read as if nothing had happened;
if it is not, the one access there is has been made.

A walk (`Pages.Walk`) is followed with what is known between two of its steps (`Pages.StandsAt`):
it is still before the first page, or at a request that reads like the first one and will use up
the reply with the number of the step. **So the page of a step is made of the reply with its
number, and can be read exactly if its request had the body buffered** (`Pages.bytes_of_page`).
-/

set_option autoImplicit false

namespace OData

/-! ## What a page can be read for -/

/-- The page made of an answer to a request, after its link has been looked for. -/
def Request.pageOf (q : Request) (a : Answer) : Response :=
  let r := q.responseTo q.sentHeaders a.delivered
  if r.hasEntity then r.accessed else r

/-- What the first reading of a page gives, if the answer did not break off: there is one access to
the body of an answer that is not buffered, and it has been made. -/
def Answer.pageBytes (a : Answer) (buffering : Bool) : Except Body.Refusal (List UInt8) :=
  match a.body with
  | none => .error .noEntity
  | some s => if buffering then .ok s.rest else .error .alreadyConsumed

namespace Pages

open Access

theorem bytes_of_pageOf {q : Request} {a : Answer}
    (hbody : ∀ s, a.body = some s → s.breaksOff = false) (j : Journal) :
    (on (q.pageOf a) j bytes).1.1 =
      (a.pageBytes q.context.buffering).mapError (·.failure.atRequest (q.pageOf a).locus) := by
  obtain ⟨status, reason, headers, body⟩ := a
  unfold bytes
  rw [on_bind, on_source]
  cases body with
  | none => rfl
  | some s =>
    obtain ⟨rest, breaksOff, metered⟩ := s
    obtain rfl : breaksOff = false := hbody _ rfl
    obtain ⟨⟨path, protocol, headers', options, tokens, listeners, buffering⟩, target,
      operation⟩ := q
    cases buffering with
    | true => rfl
    | false => rfl

/-! ## Walks -/

/-- A walk from `start` on the network `n₀` after so many steps. The caller may look at what has
been given to him in between, as long as he leaves the replies alone. -/
inductive Walk (start : Pages) (n₀ : Network) : Nat → Pages → Network → Prop where
  | start : Walk start n₀ 0 start n₀
  | next {k : Nat} {p p' : Pages} {n n' : Network} {item : Option (Except Failure Response)}
      (before : Walk start n₀ k p n) (step : p.next.run n = ((item, p'), n')) :
      Walk start n₀ (k + 1) p' n'
  | meanwhile {k : Nat} {p : Pages} {n n' : Network} (before : Walk start n₀ k p n)
      (same : n'.replies = n.replies) : Walk start n₀ k p n'

/-- Where a walk may stand before a step, and the replies that are left then: it is at its first
page, made of the first reply; or it has a request whose page will be made of the reply with the
number of the step; or it will ask for nothing more. -/
inductive StandsAt (buffering : Bool) (replies : List Reply) : Nat → Pages → List Reply → Prop where
  | first {q : Request} {a : Answer} {left : List Reply} (hq : q.context.buffering = buffering)
      (h : replies = .ok a :: left) :
      StandsAt buffering replies 0 (first (q.responseTo q.sentHeaders a.delivered)) left
  | follow {q : Request} {k : Nat} (hq : q.context.buffering = buffering)
      (hm : q.operation.modifies = false) :
      StandsAt buffering replies k (follow q) (replies.drop k)
  | failed {k : Nat} {f : Failure} {left : List Reply} :
      StandsAt buffering replies k (failed f) left
  | done {k : Nat} {left : List Reply} : StandsAt buffering replies k done left

variable {buffering : Bool} {replies : List Reply} {k : Nat} {n n' : Network}

/-- From a page that the walk has asked for it goes on with the settings of the request for it. -/
theorem StandsAt.onward {q : Request} {a : Answer} (hq : q.context.buffering = buffering) :
    StandsAt buffering replies k (onward (q.responseTo q.sentHeaders a.delivered))
      (replies.drop k) := by
  unfold Pages.onward
  split
  · next q' hnext =>
    obtain ⟨q₀, link, -, hq₀, rfl⟩ := Response.foundRequest_eq_some hnext
    cases hq₀
    exact .follow hq rfl
  · exact .done
  · exact .failed

/-- A page that has been asked for is given out. -/
theorem StandsAt.given {q : Request} {a : Answer} (hq : q.context.buffering = buffering)
    {left : List Reply} (hreplies : replies.drop k = .ok a :: left) :
    StandsAt buffering replies (k + 1)
        (Pages.onward (q.responseTo q.sentHeaders a.delivered)) left ∧
      replies[k]? = some (.ok a) := by
  have hleft : left = replies.drop (k + 1) := by
    rw [← List.tail_drop, hreplies]
    rfl
  rw [hleft]
  refine ⟨.onward hq, ?_⟩
  rw [← List.head?_drop, hreplies]
  rfl

/-- A step asks for one page at most, and gives it out. -/
theorem StandsAt.next {p p' : Pages} {item : Option (Except Failure Response)}
    (h : StandsAt buffering replies k p n.replies) (hrun : p.next.run n = ((item, p'), n')) :
    StandsAt buffering replies (k + 1) p' n'.replies ∧
      ∀ page, item = some (.ok page) → ∃ (q : Request) (a : Answer),
        q.context.buffering = buffering ∧ replies[k]? = some (.ok a) ∧ page = q.pageOf a := by
  generalize hleft : n.replies = left at h
  cases h with
  | @first q a _ hq hreplies =>
    obtain ⟨m, hnext⟩ := run_next_first (q.responseTo q.sentHeaders a.delivered) n
    rw [hnext] at hrun
    cases hrun
    rw [← hleft] at hreplies
    obtain ⟨hstands, hreply⟩ := StandsAt.given (k := 0) hq hreplies
    refine ⟨hstands, ?_⟩
    rintro page ⟨⟩
    exact ⟨q, a, hq, hreply, rfl⟩
  | @follow q _ hq hm =>
    obtain ⟨m, hnext⟩ := run_next_follow q n
    rw [hnext] at hrun
    rcases hexec : q.execute.run n with ⟨f | r, n₁⟩
    · rw [hexec] at hrun
      cases hrun
      exact ⟨.done, by rintro page ⟨⟩⟩
    · rw [hexec] at hrun
      cases hrun
      obtain ⟨a, hreplies, rfl⟩ := q.execute_eq_ok hm hexec
      rw [hleft] at hreplies
      obtain ⟨hstands, hreply⟩ := StandsAt.given hq hreplies
      refine ⟨hstands, ?_⟩
      rintro page ⟨⟩
      exact ⟨q, a, hq, hreply, rfl⟩
  | failed =>
    cases hrun
    exact ⟨.done, by rintro page ⟨⟩⟩
  | done =>
    cases hrun
    exact ⟨.done, by rintro page ⟨⟩⟩

theorem standsAt_of_walk {start p : Pages} {n₀ : Network}
    (hstart : StandsAt buffering replies 0 start n₀.replies) (h : Walk start n₀ k p n) :
    StandsAt buffering replies k p n.replies := by
  induction h with
  | start => exact hstart
  | next before step ih => exact (ih.next step).1
  | meanwhile before same ih =>
    rw [same]
    exact ih

/-- **The page of a step is made of the reply with its number, and its first reading gives the
content of that reply exactly if the request had its responses buffered.** If it had not, the
content has been used up in looking for the next page. -/
theorem bytes_of_page {q : Request} (hq : q.operation.modifies = false) {n₀ n₁ : Network}
    {r : Response} (hexec : q.execute.run n₀ = (.ok r, n₁))
    (hbody : ∀ a s, .ok a ∈ n₀.replies → a.body = some s → s.breaksOff = false)
    {p p' : Pages} (hwalk : Walk (first r) n₁ k p n) {page : Response}
    (hnext : p.next.run n = ((some (.ok page), p'), n')) (j : Journal) :
    ∃ a, n₀.replies[k]? = some (.ok a) ∧ page.status = a.status ∧ page.headers = a.headers ∧
      (on page j bytes).1.1 =
        (a.pageBytes q.context.buffering).mapError (·.failure.atRequest page.locus) := by
  obtain ⟨a₀, hreplies, rfl⟩ := q.execute_eq_ok hq hexec
  have hstart : StandsAt q.context.buffering n₀.replies 0 (first _) n₁.replies :=
    .first (q := q) rfl hreplies
  obtain ⟨q', a, hq', ha, rfl⟩ := ((standsAt_of_walk hstart hwalk).next hnext).2 page rfl
  have hcore : (q'.pageOf a).core = (q'.responseTo q'.sentHeaders a.delivered).core := by
    unfold Request.pageOf
    dsimp only
    split <;> rfl
  refine ⟨a, ha, congrArg Response.status hcore, congrArg Response.headers hcore, ?_⟩
  rw [← hq']
  exact bytes_of_pageOf (fun s => hbody a s (List.mem_of_getElem? ha)) j

/-! Two pages of a collection, the first with a link to the second. -/

def readPeople (buffering : Bool) : Request :=
  let q := Request.of "/svc" (.of "People") .v4 (.read "")
  { q with context := { q.context with buffering } }

def linkingPage : Answer :=
  .json (.ofBytes (Text.Utf8.ofString
    "\x7b\"value\":[],\"@odata.nextLink\":\"People?$skip=1\"\x7d"))

def lastContent : List UInt8 := Text.Utf8.ofString "\x7b\"value\":[]\x7d"

def lastPage : Answer := .json (.ofBytes lastContent)

def twoPages : Network := .scripted [.ok linkingPage, .ok lastPage]

theorem uri_readPeople (buffering : Bool) :
    (readPeople buffering).uri .regular = .ok "/svc/People" := by
  refine eq_ok_of_toOption ?_
  cases buffering with
  | true => decide +kernel
  | false => decide +kernel

theorem foundLink_linkingPage (buffering : Bool) :
    ((readPeople buffering).responseTo (readPeople buffering).sentHeaders
      linkingPage.delivered).foundLink = .ok (some "People?$skip=1") := by
  refine eq_ok_of_toOption ?_
  cases buffering with
  | true => decide +kernel
  | false => decide +kernel

/-- The walk gets to the second page, whether or not it can be read then. -/
theorem walk_twoPages (buffering : Bool) :
    ∃ r n₁ p n page p' n', (readPeople buffering).execute.run twoPages = (.ok r, n₁) ∧
      Walk (first r) n₁ 1 p n ∧ p.next.run n = ((some (.ok page), p'), n') := by
  obtain ⟨n₁, hexec, hn₁⟩ := Request.execute_of_reply (n := twoPages) rfl
    (uri_readPeople _) rfl (by decide)
  have hfound := Response.foundRequest_of_link (foundLink_linkingPage buffering) rfl rfl rfl
  obtain ⟨k, hfirst⟩ := run_next_first ((readPeople buffering).responseTo
    (readPeople buffering).sentHeaders linkingPage.delivered) n₁
  rw [onward, hfound] at hfirst
  have huri' : (((readPeople buffering).executed (readPeople buffering).sentHeaders).follow
      "People?$skip=1").uri .regular = .ok "/svc/People?$skip=1" := by
    refine eq_ok_of_toOption ?_
    cases buffering with
    | true => decide +kernel
    | false => decide +kernel
  obtain ⟨n₂, hexec', -⟩ := Request.execute_of_reply (n := n₁.pulling k) rfl huri' hn₁ (by decide)
  obtain ⟨k', hsecond⟩ := run_next_follow (((readPeople buffering).executed
    (readPeople buffering).sentHeaders).follow "People?$skip=1") (n₁.pulling k)
  rw [hexec'] at hsecond
  exact ⟨_, n₁, _, _, _, _, _, hexec, .next .start hfirst, hsecond⟩

/-- With buffering, the second page can be read; without, it cannot. -/
theorem bytes_of_page_twoPages :
    (∃ r n₁ p n page p' n', (readPeople true).execute.run twoPages = (.ok r, n₁) ∧
      Walk (first r) n₁ 1 p n ∧ p.next.run n = ((some (.ok page), p'), n') ∧
      (on page .empty bytes).1.1 = .ok lastContent) ∧
    ∃ r n₁ p n page p' n', (readPeople false).execute.run twoPages = (.ok r, n₁) ∧
      Walk (first r) n₁ 1 p n ∧ p.next.run n = ((some (.ok page), p'), n') ∧
      (on page .empty bytes).1.1 =
        .error ((Failure.unreadable .alreadyConsumed).atRequest page.locus) := by
  have hbody : ∀ a s, .ok a ∈ twoPages.replies → a.body = some s → s.breaksOff = false := by
    intro a s ha hs
    rcases List.mem_cons.mp ha with h | h
    · cases h
      cases hs
      rfl
    · cases List.mem_singleton.mp h
      cases hs
      rfl
  constructor
  · obtain ⟨r, n₁, p, n, page, p', n', hexec, hwalk, hnext⟩ := walk_twoPages true
    obtain ⟨a, ha, -, -, hbytes⟩ := bytes_of_page rfl hexec hbody hwalk hnext .empty
    cases ha
    exact ⟨r, n₁, p, n, page, p', n', hexec, hwalk, hnext, hbytes⟩
  · obtain ⟨r, n₁, p, n, page, p', n', hexec, hwalk, hnext⟩ := walk_twoPages false
    obtain ⟨a, ha, -, -, hbytes⟩ := bytes_of_page rfl hexec hbody hwalk hnext .empty
    cases ha
    exact ⟨r, n₁, p, n, page, p', n', hexec, hwalk, hnext, hbytes⟩

/-- Without buffering, a single page is given out as well, and its content cannot be read. -/
theorem unbuffered_page_unreadable :
    ∃ r n₁ page p n₂, (readPeople false).execute.run (.scripted [.ok lastPage]) = (.ok r, n₁) ∧
      (first r).next.run n₁ = ((some (.ok page), p), n₂) ∧
      lastPage.body = some (.ofBytes lastContent) ∧
      (on page .empty bytes).1.1 ≠ .ok lastContent := by
  obtain ⟨n₁, hexec, -⟩ := Request.execute_of_reply (n := .scripted [.ok lastPage]) rfl
    (uri_readPeople false) rfl (by decide)
  obtain ⟨k, hfirst⟩ := run_next_first ((readPeople false).responseTo
    (readPeople false).sentHeaders lastPage.delivered) n₁
  refine ⟨_, n₁, (readPeople false).pageOf lastPage, _, _, hexec, hfirst, rfl, ?_⟩
  have hbody : ∀ s, lastPage.body = some s → s.breaksOff = false := by
    intro s hs
    cases hs
    rfl
  rw [bytes_of_pageOf hbody]
  intro h
  cases h

end Pages

end OData
