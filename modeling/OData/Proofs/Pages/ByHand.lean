import OData.Proofs.Pages
import OData.Proofs.Request.Reads

/-!
# Walking and going by hand

A caller can go through the pages by hand: look for the next link of a page, ask for the next page
as long as there is one, and go on with that (`Pages.ByHand`). The walk does the same one step ahead
of its caller. What it will give is a list that is known beforehand (`Pages.Yields`), and that list
is got by following the caller by hand (`Pages.yields_of_byHand`). **So a walk over buffered pages
gives what going by hand gives, calls the service only for pages that are asked for, and ends**
(`Pages.walk_eq_byHand`).
-/

set_option autoImplicit false

namespace OData

open Access

/-- What has been accessed is left alone by another access. -/
theorem Body.accessed_accessed (b : Body) : b.accessed.accessed = b.accessed := by
  obtain ⟨buffering, state⟩ := b
  cases state with
  | pending source =>
    cases source with
    | none => rfl
    | some s =>
      obtain ⟨rest, breaksOff, metered⟩ := s
      cases buffering <;> cases breaksOff <;> rfl
  | buffered bytes => rfl
  | consumed => rfl

namespace Response

variable {r : Response}

theorem lookedAt_lookedAt (r : Response) : r.lookedAt.lookedAt = r.lookedAt := by
  unfold lookedAt
  by_cases he : r.hasEntity = true
  · rw [if_pos he, if_pos (show r.accessed.hasEntity = true from he)]
    unfold accessed
    rw [Body.accessed_accessed]
  · rw [if_neg he, if_neg he]

theorem run_visit_nextLink (r : Response) (n : Network) :
    ∃ k, (Session.visit r nextLink.run).run n = ((r.foundLink, r.lookedAt), n.pulling k) := by
  obtain ⟨k, hlink⟩ := r.on_nextLink n.journal
  refine ⟨k, ?_⟩
  rw [Session.run_visit, hlink]
  rfl

theorem of_run_visit_nextLink {n n' : Network} {outcome : Except Failure (Option String)}
    {r' : Response} (look : (Session.visit r nextLink.run).run n = ((outcome, r'), n')) :
    r.foundLink = outcome ∧ r' = r.lookedAt ∧ n'.replies = n.replies := by
  obtain ⟨k, hlook⟩ := r.run_visit_nextLink n
  rw [hlook] at look
  cases look
  exact ⟨rfl, rfl, rfl⟩

theorem modifies_of_found {q : Request} (h : r.foundRequest = .ok (some q)) :
    q.operation.modifies = false := by
  obtain ⟨q₀, link, -, -, rfl⟩ := foundRequest_eq_some h
  rfl

/-- A page whose body is buffered, like those that will be asked for from it. -/
def Buffered (r : Response) : Prop :=
  r.body.buffering = true ∧ ∀ q, r.request = some q → q.context.buffering = true

/-- A request that is found in a buffered page uses up a reply, and its page is buffered again. -/
theorem Buffered.of_found (hb : r.Buffered) {q : Request} (h : r.foundRequest = .ok (some q))
    {n n' : Network} {next : Response} (hexec : q.execute.run n = (.ok next, n')) :
    next.Buffered ∧ n'.replies.length < n.replies.length := by
  obtain ⟨q₀, link, -, hq₀, rfl⟩ := foundRequest_eq_some h
  obtain ⟨a, hreplies, rfl⟩ := Request.execute_eq_ok (q := q₀.follow link) rfl hexec
  refine ⟨⟨hb.2 q₀ hq₀, ?_⟩, ?_⟩
  · intro q hq
    cases hq
    exact hb.2 q₀ hq₀
  · rw [hreplies]
    exact Nat.lt_succ_self _

/-- Asking for the next page of a buffered page after its link has been looked for: either there is
no request for it, or that request is executed. -/
theorem Buffered.ask (hb : r.Buffered) {link : String} (hlink : r.foundLink = .ok (some link))
    {n n' : Network} {outcome : Except Failure Response} {r' : Response}
    (h : r.lookedAt.nextPage.run n = ((outcome, r'), n')) :
    r' = r.lookedAt ∧ ((∃ f, r.foundRequest = .error f ∧ outcome = .error f) ∨
      ∃ q n₁, r.foundRequest = .ok (some q) ∧ n₁.replies = n.replies ∧
        q.execute.run n₁ = (outcome, n')) := by
  have hagain : r.lookedAt.foundRequest = r.foundRequest := by
    refine foundRequest_congr r.core_lookedAt ?_
    rw [hlink]
    exact (foundLink_lookedAt_eq_ok hb.1).mpr hlink
  obtain ⟨hr, k, hcases⟩ := nextPage_cases h
  rw [hagain] at hcases
  refine ⟨hr.trans r.lookedAt_lookedAt, ?_⟩
  obtain ⟨f, hfound, hout, -⟩ | ⟨hfound, -⟩ | ⟨q, hfound, hexec⟩ := hcases
  · exact .inl ⟨f, hfound, hout⟩
  · exact absurd hfound (foundRequest_of_some hlink)
  · exact .inr ⟨q, n.pulling k, hfound, rfl, hexec⟩

end Response

namespace Pages

/-! ## By hand -/

/-- What a caller gets who goes by hand from a page: he looks for its next link, asks for the next
page if there is one, and goes on from there. Either may fail, and then that is the last he gets.
Each page is meant as he leaves it, with its link looked for. -/
inductive ByHand : Response → Network → List (Except Failure Response) → Network → Prop where
  | unreadable {r r' : Response} {n n' : Network} {f : Failure}
      (look : (Session.visit r nextLink.run).run n = ((.error f, r'), n')) :
      ByHand r n [.ok r', .error f] n'
  | last {r r' : Response} {n n' : Network}
      (look : (Session.visit r nextLink.run).run n = ((.ok none, r'), n')) :
      ByHand r n [.ok r'] n'
  | failed {r r' r'' : Response} {n n' n'' : Network} {link : String} {f : Failure}
      (look : (Session.visit r nextLink.run).run n = ((.ok (some link), r'), n'))
      (ask : r'.nextPage.run n' = ((.error f, r''), n'')) :
      ByHand r n [.ok r'', .error f] n''
  | page {r r' r'' next : Response} {n n' n'' m : Network} {link : String}
      {items : List (Except Failure Response)}
      (look : (Session.visit r nextLink.run).run n = ((.ok (some link), r'), n'))
      (ask : r'.nextPage.run n' = ((.ok next, r''), n'')) (rest : ByHand next n'' items m) :
      ByHand r n (.ok r'' :: items) m

variable {r : Response} {n m : Network} {items : List (Except Failure Response)} {k : Nat}

/-- There is one way to go by hand. -/
theorem ByHand.unique (h : ByHand r n items m) {items' : List (Except Failure Response)}
    {m' : Network} (h' : ByHand r n items' m') : items' = items := by
  induction h generalizing items' m' with
  | unreadable look =>
    cases h' with
    | unreadable look' =>
      rw [look] at look'
      cases look'
      rfl
    | last look' | failed look' | page look' =>
      rw [look] at look'
      cases look'
  | last look =>
    cases h' with
    | last look' =>
      rw [look] at look'
      cases look'
      rfl
    | unreadable look' | failed look' | page look' =>
      rw [look] at look'
      cases look'
  | failed look ask =>
    cases h' with
    | unreadable look' | last look' =>
      rw [look] at look'
      cases look'
    | failed look' ask' =>
      rw [look] at look'
      cases look'
      rw [ask] at ask'
      cases ask'
      rfl
    | page look' ask' =>
      rw [look] at look'
      cases look'
      rw [ask] at ask'
      cases ask'
  | page look ask rest ih =>
    cases h' with
    | unreadable look' | last look' =>
      rw [look] at look'
      cases look'
    | failed look' ask' =>
      rw [look] at look'
      cases look'
      rw [ask] at ask'
      cases ask'
    | page look' ask' rest' =>
      rw [look] at look'
      cases look'
      rw [ask] at ask'
      cases ask'
      rw [ih rest']

/-- A failure is the last that one gets. -/
theorem ByHand.length_of_error (h : ByHand r n items m) {f : Failure}
    (hf : items[k]? = some (.error f)) : items.length = k + 1 := by
  induction h generalizing k with
  | unreadable look | failed look ask =>
    match k with
    | 0 => cases hf
    | 1 => rfl
    | k + 2 => cases hf
  | last look =>
    match k with
    | 0 => cases hf
    | k + 1 => cases hf
  | page look ask rest ih =>
    match k with
    | 0 => cases hf
    | k + 1 => exact congrArg (· + 1) (ih hf)

/-- Going by hand ends: each further page uses up a reply. -/
theorem exists_byHand (hb : r.Buffered) (n : Network) :
    ∃ items m, ByHand r n items m ∧ items.length ≤ n.replies.length + 2 := by
  induction hleft : n.replies.length using Nat.strongRecOn generalizing r n with
  | ind left ih =>
    obtain ⟨k, look⟩ := r.run_visit_nextLink n
    rcases hlink : r.foundLink with f | _ | link
    · rw [hlink] at look
      exact ⟨_, _, .unreadable look, Nat.le_add_left 2 left⟩
    · rw [hlink] at look
      exact ⟨_, _, .last look, Nat.le_add_left 1 (left + 1)⟩
    · rw [hlink] at look
      rcases hask : r.lookedAt.nextPage.run (n.pulling k) with ⟨⟨f | next, r'⟩, n'⟩
      · exact ⟨_, _, .failed look hask, Nat.le_add_left 2 left⟩
      · obtain ⟨-, ⟨f, -, hout⟩ | ⟨q, n₁, hfound, hn₁, hexec⟩⟩ := hb.ask hlink hask
        · cases hout
        · obtain ⟨hnext, hless⟩ := hb.of_found hfound hexec
          rw [hn₁] at hless
          change n'.replies.length < n.replies.length at hless
          rw [hleft] at hless
          obtain ⟨items, m, hrest, hlength⟩ := ih _ hless hnext n' rfl
          refine ⟨_, _, .page look hask hrest, ?_⟩
          rw [List.length_cons]
          omega

/-! ## Walking -/

/-- A walk will give these items, one at each step, whatever the outside has seen by then: only the
replies that are left matter. A step makes one call at most. -/
inductive Yields : Pages → List Reply → List (Except Failure Response) → Prop where
  | done {left : List Reply} : Yields done left []
  | step {p : Pages} {left : List Reply} {item : Except Failure Response}
      {items : List (Except Failure Response)} (p' : Pages) (left' : List Reply)
      (next : ∀ n, n.replies = left → ∃ n' cs, p.next.run n = ((some item, p'), n') ∧
        n'.replies = left' ∧ n'.journal.calls = n.journal.calls ++ cs ∧ cs.length ≤ 1)
      (rest : Yields p' left' items) : Yields p left (item :: items)

theorem yields_failed (f : Failure) (left : List Reply) : Yields (failed f) left [.error f] := by
  refine .step done left ?_ .done
  intro n hn
  exact ⟨n, [], rfl, hn, (List.append_nil _).symm, Nat.zero_le 1⟩

/-- A walk that is at a request gives what comes of it. If that is a page, it goes on from there. -/
theorem yields_follow {q : Request} (hq : q.operation.modifies = false) {n n' : Network}
    {outcome : Except Failure Response} (hexec : q.execute.run n = (outcome, n')) :
    match outcome with
    | .error f => Yields (follow q) n.replies [.error f]
    | .ok next => ∀ rest, Yields (onward next) n'.replies rest →
        Yields (follow q) n.replies (.ok next.lookedAt :: rest) := by
  obtain ⟨outcome', -, hruns⟩ := q.execute_of_replies hq n.replies
  have hsettled : outcome' = outcome ∧ n'.replies = n.replies.drop q.ownCalls.length := by
    obtain ⟨n'', hrun, hleft, -⟩ := hruns n rfl
    rw [hexec] at hrun
    cases hrun
    exact ⟨rfl, hleft⟩
  obtain ⟨rfl, hleft⟩ := hsettled
  cases outcome' with
  | error f =>
    refine .step done n'.replies ?_ .done
    intro m hm
    obtain ⟨m', hrun, hreplies, hcalls⟩ := hruns m hm
    obtain ⟨k, hnext⟩ := run_next_follow q m
    rw [hnext, hrun]
    exact ⟨m', q.ownCalls, rfl, hreplies.trans hleft.symm, hcalls, q.length_ownCalls_le⟩
  | ok next =>
    intro rest hrest
    refine .step (onward next) n'.replies ?_ hrest
    intro m hm
    obtain ⟨m', hrun, hreplies, hcalls⟩ := hruns m hm
    obtain ⟨k, hnext⟩ := run_next_follow q m
    rw [hnext, hrun]
    exact ⟨m'.pulling k, q.ownCalls, rfl, hreplies.trans hleft.symm, hcalls, q.length_ownCalls_le⟩

/-- Behind the page that it gives, a walk gives what the caller by hand gets behind it. The
induction goes along his way; that the pages are buffered is what lets him look for a link and then
have it looked for once more. -/
theorem yields_of_byHand (h : ByHand r n items m) (hb : r.Buffered) :
    ∃ rest, items = .ok r.lookedAt :: rest ∧ Yields (onward r) n.replies rest := by
  induction h with
  | unreadable look =>
    obtain ⟨hlink, rfl, -⟩ := Response.of_run_visit_nextLink look
    refine ⟨_, rfl, ?_⟩
    rw [onward, Response.foundRequest_of_error hlink]
    exact yields_failed _ _
  | last look =>
    obtain ⟨hlink, rfl, -⟩ := Response.of_run_visit_nextLink look
    refine ⟨_, rfl, ?_⟩
    rw [onward, Response.foundRequest_of_none hlink]
    exact .done
  | failed look ask =>
    obtain ⟨hlink, rfl, hn⟩ := Response.of_run_visit_nextLink look
    obtain ⟨rfl, ⟨f, hfound, hout⟩ | ⟨q, n₁, hfound, hn₁, hexec⟩⟩ := hb.ask hlink ask
    · cases hout
      refine ⟨_, rfl, ?_⟩
      rw [onward, hfound]
      exact yields_failed _ _
    · refine ⟨_, rfl, ?_⟩
      rw [onward, hfound, ← hn, ← hn₁]
      exact yields_follow (Response.modifies_of_found hfound) hexec
  | page look ask rest ih =>
    obtain ⟨hlink, rfl, hn⟩ := Response.of_run_visit_nextLink look
    obtain ⟨rfl, ⟨f, hfound, hout⟩ | ⟨q, n₁, hfound, hn₁, hexec⟩⟩ := hb.ask hlink ask
    · cases hout
    · obtain ⟨hnext, -⟩ := hb.of_found hfound hexec
      obtain ⟨items, rfl, hrest⟩ := ih hnext
      refine ⟨_, rfl, ?_⟩
      rw [onward, hfound, ← hn, ← hn₁]
      exact yields_follow (Response.modifies_of_found hfound) hexec items hrest

/-- A step gives the first of the items, if there is one, and leaves the others. Without an item, no
call is made. -/
theorem Yields.next {p p' : Pages} {n' : Network} {item : Option (Except Failure Response)}
    (hy : Yields p n.replies items) (step : p.next.run n = ((item, p'), n')) :
    item = items.head? ∧ Yields p' n'.replies items.tail ∧
      ∃ cs, n'.journal.calls = n.journal.calls ++ cs ∧ cs.length ≤ 1 ∧ (item = none → cs = []) := by
  generalize hleft : n.replies = left at hy
  cases hy with
  | done =>
    cases step
    exact ⟨rfl, .done, [], (List.append_nil _).symm, Nat.zero_le 1, fun _ => rfl⟩
  | step p' left' next rest =>
    obtain ⟨n'', cs, hrun, hreplies, hcalls, hlength⟩ := next n hleft
    rw [step] at hrun
    cases hrun
    rw [hreplies]
    exact ⟨rfl, rest, cs, hcalls, hlength, fun h => by cases h⟩

/-- What a walk will give next are the items from the number of its step on. -/
theorem Yields.of_walk {start p : Pages} {n₀ : Network} (hy : Yields start n₀.replies items)
    (h : Walk start n₀ k p n) : Yields p n.replies (items.drop k) := by
  induction h with
  | start => exact hy
  | next before step ih =>
    rw [← List.tail_drop]
    exact (ih.next step).2.1
  | meanwhile before same ih =>
    rw [same]
    exact ih

theorem Walk.eq_start {start p : Pages} {n₀ : Network} (h : Walk start n₀ 0 p n) : p = start := by
  generalize hk : 0 = k at h
  induction h with
  | start => rfl
  | next before step ih => cases hk
  | meanwhile before same ih => exact ih hk

/-- **A walk over buffered pages is going by hand.** It starts with the response itself and gives,
one by one, what one gets by hand: the results of asking for the next page as long as there is a
link, and the failure to find one if that is how it ends. After a failure or a page without a link
it gives nothing more. No call is made for the first page, one at most for each further item, and
none when there is nothing more to give. With so many replies left there are two items more at most.
-/
theorem walk_eq_byHand {q : Request} (hq : q.operation.isRead = true)
    (hbuffering : q.context.buffering = true) {n₀ n₁ : Network} {r₀ : Response}
    (hexec : q.execute.run n₀ = (.ok r₀, n₁)) (hcore : r.core = r₀.core)
    (hbody : r.body.buffering = true) (n : Network) :
    ∃ items m, ByHand r n items m ∧ (∀ items' m', ByHand r n items' m' → items' = items) ∧
      items.head? = some (.ok r.lookedAt) ∧ items.length ≤ n.replies.length + 2 ∧
      (∀ (k : Nat) f, items[k]? = some (.error f) → items.length = k + 1) ∧
      ∀ k p n', Walk (first r) n k p n' → ∃ p' n'' cs, p.next.run n' = ((items[k]?, p'), n'') ∧
        n''.journal.calls = n'.journal.calls ++ cs ∧ cs.length ≤ 1 ∧
        (k = 0 ∨ items[k]? = none → cs = []) := by
  have hmodifies := (Request.of_isRead hq).2.2.2.2
  have hb : r.Buffered := by
    obtain ⟨a, -, rfl⟩ := q.execute_eq_ok hmodifies hexec
    refine ⟨hbody, ?_⟩
    intro q' hq'
    rw [(Response.of_core_eq hcore).1] at hq'
    cases hq'
    exact hbuffering
  obtain ⟨items, m, hhand, hlength⟩ := exists_byHand hb n
  obtain ⟨rest, rfl, hrest⟩ := yields_of_byHand hhand hb
  have hyields : Yields (first r) n.replies (.ok r.lookedAt :: rest) := by
    refine .step (onward r) n.replies ?_ hrest
    intro n' hn'
    obtain ⟨k, hnext⟩ := run_next_first r n'
    rw [hnext]
    exact ⟨_, [], rfl, hn', (List.append_nil _).symm, Nat.zero_le 1⟩
  refine ⟨_, m, hhand, fun _ _ h => hhand.unique h, rfl, hlength,
    fun k f h => hhand.length_of_error h, ?_⟩
  intro k p n' hwalk
  rcases hstep : p.next.run n' with ⟨⟨item, p'⟩, n''⟩
  obtain ⟨hitem, -, cs, hcalls, hone, hnone⟩ := (hyields.of_walk hwalk).next hstep
  rw [List.head?_drop] at hitem
  rw [← hitem]
  refine ⟨p', n'', cs, rfl, hcalls, hone, ?_⟩
  rintro (rfl | h)
  · obtain rfl := hwalk.eq_start
    -- Giving out the first page is no call.
    obtain ⟨i, hfirst⟩ := run_next_first r n'
    rw [hstep] at hfirst
    cases hfirst
    exact List.append_right_eq_self.mp hcalls.symm
  · exact hnone h

/-- Going by hand through two pages gives both, and so does the walk. -/
theorem walk_eq_byHand_twoPages :
    ∃ r n₁ items m page, (readPeople true).execute.run twoPages = (.ok r, n₁) ∧
      ByHand r n₁ items m ∧ items.head? = some (.ok r.lookedAt) ∧ items[1]? = some (.ok page) ∧
      items.length ≤ 3 := by
  obtain ⟨r, n₁, p, n, page, p', n', hexec, hwalk, hnext⟩ := walk_twoPages true
  obtain ⟨a, hreplies, hr⟩ := Request.execute_eq_ok (q := readPeople true) rfl hexec
  have hbody : r.body.buffering = true := by
    rw [hr]
    rfl
  obtain ⟨items, m, hhand, -, hfirst, hlength, -, hwalks⟩ :=
    walk_eq_byHand (q := readPeople true) rfl rfl hexec rfl hbody n₁
  obtain ⟨p'', n'', cs, hstep, -⟩ := hwalks 1 p n hwalk
  rw [hnext] at hstep
  cases hleft : n₁.replies with
  | nil =>
    rw [hleft] at hreplies
    cases hreplies
  | cons reply left =>
    rw [hleft] at hreplies
    cases hreplies
    rw [hleft] at hlength
    exact ⟨r, n₁, items, m, page, hexec, hhand, hfirst,
      (congrArg (fun s => s.1.1) hstep).symm, hlength⟩

end Pages

end OData
