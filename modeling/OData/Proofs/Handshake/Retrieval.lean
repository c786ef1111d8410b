import OData.Proofs.Headers
import OData.Proofs.Session

/-!
# Getting a token

A source gives a token if the service has answered with one, or if the caller has made one
(`TokenSource.Gives`); only for the first a call is made. What comes of trying depends on the next
reply alone (`TokenSource.outcome`, `TokenSource.run_retrieve`).

**A handshake is what its main part does, after the attempt to get a token if one is needed**
(`Handshake.run_of_oneCall`): the main part is run exactly once, with the token if there is one, and
its failure remembers a failed attempt.
-/

set_option autoImplicit false

namespace OData

open OData.Text

/-- The headers with the token at their end, if there is one. -/
def Headers.withToken (h : Headers) (token? : Option String) : Headers :=
  ⟨h.entries ++ token?.toList.map fun token => ⟨TokenSource.header, [token]⟩⟩

namespace TokenSource

/-- The calls by which a source gets its tokens. -/
def callsFor (t : TokenSource) (servicePath : String) (headers : Headers) : List Call :=
  match t with
  | fetch => [tokenCall servicePath headers]
  | disabled | supplied _ => []

/-- A source has this token to give: it stands in a healthy answer to the call for it, or the caller
has made it. -/
inductive Gives (servicePath : String) (headers : Headers) (replies : List Reply) :
    TokenSource → String → Prop where
  | fetched {a : Answer} {value : String} (reply : replies.head? = some (.ok a))
      (healthy : a.status < 400) (named : a.headers.get? header = some value)
      (filled : trimmed value ≠ "") : Gives servicePath headers replies fetch (trimmed value)
  | made {retrieve : String → Headers → Except Failure String} {token : String}
      (h : retrieve servicePath headers = .ok token) :
      Gives servicePath headers replies (supplied retrieve) token

/-- What comes of trying to get a token. -/
def outcome (t : TokenSource) (servicePath : String) (headers : Headers) (replies : List Reply) :
    Except Failure String :=
  match t with
  | disabled => .error (.construction .tokensDisabled)
  | supplied retrieve => retrieve servicePath headers
  | fetch =>
    let call := tokenCall servicePath headers
    match replies.head? with
    | some (.ok a) => tokenIn call a
    | some (.error fault) => .error (.connection (.tokenCall call.uri) fault)
    | none => .error (.connection (.tokenCall call.uri) (Network.exhausted call))

theorem tokenIn_eq_ok_iff {c : Call} {a : Answer} {token : String} :
    tokenIn c a = .ok token ↔
      a.status < 400 ∧ ∃ value, a.headers.get? header = some value ∧ trimmed value ≠ "" ∧
        trimmed value = token := by
  unfold tokenIn
  by_cases hs : 400 ≤ a.status
  · rw [if_pos hs]
    constructor
    · intro h
      cases h
    · rintro ⟨h, -⟩
      exact absurd hs (Nat.not_le.mpr h)
  · rw [if_neg hs]
    cases hv : a.headers.get? header with
    | none =>
      constructor
      · intro h
        cases h
      · rintro ⟨-, value, h, -⟩
        cases h
    | some value =>
      dsimp only [Option.map_some]
      split
      · next hempty =>
        constructor
        · intro h
          cases h
        · rintro ⟨-, value', h, hfilled, -⟩
          cases h
          exact absurd hempty hfilled
      · next hfilled =>
        constructor
        · intro h
          cases h
          exact ⟨Nat.not_le.mp hs, value, rfl, hfilled, rfl⟩
        · rintro ⟨-, value', h, -, rfl⟩
          cases h
          rfl

/-- A token comes of trying exactly if the source has it to give. -/
theorem outcome_eq_ok_iff {t : TokenSource} {servicePath : String} {headers : Headers}
    {replies : List Reply} {token : String} :
    t.outcome servicePath headers replies = .ok token ↔
      Gives servicePath headers replies t token := by
  constructor
  · intro h
    cases t with
    | disabled => cases h
    | supplied retrieve => exact .made h
    | fetch =>
      unfold outcome at h
      dsimp only at h
      split at h
      · next a hreply =>
        obtain ⟨hs, value, hv, hfilled, rfl⟩ := tokenIn_eq_ok_iff.mp h
        exact .fetched hreply hs hv hfilled
      · cases h
      · cases h
  · intro h
    cases h with
    | fetched reply healthy named filled =>
      unfold outcome
      dsimp only
      rw [reply]
      exact tokenIn_eq_ok_iff.mpr ⟨healthy, _, named, filled, rfl⟩
    | made h => exact h

/-- Trying to get a token makes the calls that are made for it, and nothing else is seen of it. -/
theorem run_retrieve (t : TokenSource) (servicePath : String) (headers : Headers) (n : Network) :
    ∃ n', (t.retrieve servicePath headers).run n =
        (t.outcome servicePath headers n.replies, n') ∧
      n'.journal.events = n.journal.events ++ (t.callsFor servicePath headers).map .called := by
  cases t with
  | disabled => exact ⟨n, rfl, (List.append_nil _).symm⟩
  | supplied retrieve => exact ⟨n, rfl, (List.append_nil _).symm⟩
  | fetch =>
    have hsend : (Session.send (tokenCall servicePath headers)).run n = _ :=
      n.send_eq (tokenCall servicePath headers)
    unfold retrieve outcome
    dsimp only
    rw [StateT.run_bind, hsend]
    obtain ⟨j, replies⟩ := n
    rcases replies with _ | ⟨fault | ⟨status, reason, headers', _ | s⟩, replies⟩
    · exact ⟨_, rfl, rfl⟩
    · exact ⟨_, rfl, rfl⟩
    · exact ⟨_, rfl, rfl⟩
    · exact ⟨_, rfl, rfl⟩

/-- How an attempt to get a token, if one is needed, shows in what is done then: by the token, and
in a failure by that of the attempt. -/
structure Attempted {α : Type} (t : TokenSource) (servicePath : String) (headers : Headers)
    (replies : List Reply) (needed : Prop) (token? : Option String) (done : Except Failure α) :
    Prop where
  got : ∀ token, token? = some token ↔ needed ∧ t.Gives servicePath headers replies token
  remembered : ∀ f earlier, done = .error f → needed →
    t.outcome servicePath headers replies = .error earlier → f.secondary = [earlier]
  untold : ∀ f, done = .error f → ¬ needed ∨ token? ≠ none → f.secondary = []

section

variable {α : Type} {t : TokenSource} {servicePath : String} {headers : Headers}
  {replies : List Reply} {needed : Prop} {done : Except Failure α}

theorem attempted_of_not_needed (h : ¬ needed) (hdone : ∀ f, done = .error f → f.secondary = []) :
    Attempted t servicePath headers replies needed none done where
  got _ := ⟨(nomatch ·), fun hn => absurd hn.1 h⟩
  remembered _ _ _ hn := absurd hn h
  untold f hf _ := hdone f hf

theorem attempted_of_ok (h : needed) {token : String}
    (ht : t.outcome servicePath headers replies = .ok token)
    (hdone : ∀ f, done = .error f → f.secondary = []) :
    Attempted t servicePath headers replies needed (some token) done where
  got token' := by
    rw [← outcome_eq_ok_iff, ht, Option.some_inj, Except.ok.injEq]
    exact ⟨fun heq => ⟨h, heq⟩, fun heq => heq.2⟩
  remembered _ _ _ _ he := by
    rw [ht] at he
    cases he
  untold f hf _ := hdone f hf

/-- Without a token, the failure of the main part remembers that of the attempt. -/
theorem attempted_of_error (h : needed) {earlier : Failure}
    (ht : t.outcome servicePath headers replies = .error earlier)
    (hdone : ∀ f, done = .error f → f.secondary = []) :
    Attempted t servicePath headers replies needed none (done.mapError (·.after earlier)) where
  got token := by
    rw [← outcome_eq_ok_iff, ht]
    exact ⟨(nomatch ·), (nomatch ·.2)⟩
  remembered f earlier' hf _ he := by
    rw [ht] at he
    cases he
    cases done with
    | ok a => cases hf
    | error f' =>
      cases hf
      exact congrArg (· ++ [earlier]) (hdone f' rfl)
  untold _ _ hn := hn.elim (absurd h) (absurd rfl)

/-- Only the failure counts of what is done. -/
theorem Attempted.map {β : Type} {token? : Option String} (g : α → β)
    (h : Attempted t servicePath headers replies needed token? done) :
    Attempted t servicePath headers replies needed token? (done.map g) := by
  have hdone : ∀ f, done.map g = .error f → done = .error f := by
    intro f hf
    cases done with
    | ok a => cases hf
    | error f' =>
      cases hf
      rfl
  exact ⟨h.got, fun f earlier hf => h.remembered f earlier (hdone f hf),
    fun f hf => h.untold f (hdone f hf)⟩

end

end TokenSource

namespace Handshake

theorem withToken_none (h : Headers) : h.withToken none = h :=
  congrArg Headers.mk (List.append_nil _)

theorem insert_eq_withToken {h : Headers} (habsent : h.contains TokenSource.header = false)
    (token : String) : h.insert TokenSource.header token = h.withToken (some token) :=
  Headers.insert_of_absent habsent token

section

variable {α : Type} (main : Headers → Session (Except Failure α)) {t : TokenSource}
  {servicePath : String} {headers : Headers} {n n₁ : Network}

theorem run_of_not_needed (h : isNeeded t headers = false) :
    (run t servicePath headers main).run n =
      match (main headers).run n with
      | (outcome, n') => ((outcome, headers), n') := by
  unfold run
  rw [h, if_neg Bool.false_ne_true]
  rfl

theorem run_of_token (h : isNeeded t headers = true) {token : String}
    (ht : (t.retrieve servicePath headers).run n = (.ok token, n₁)) :
    (run t servicePath headers main).run n =
      match (main (headers.withToken (some token))).run n₁ with
      | (outcome, n') => ((outcome, headers.withToken (some token)), n') := by
  have habsent : headers.contains TokenSource.header = false := by
    unfold isNeeded at h
    rw [Bool.and_eq_true, Bool.not_eq_true'] at h
    exact h.2
  unfold run
  rw [if_pos h, StateT.run_bind, ht, ← insert_eq_withToken habsent]
  rfl

/-- Without a token the main part is run all the same, and a failure of it remembers the attempt. -/
theorem run_of_no_token (h : isNeeded t headers = true) {earlier : Failure}
    (ht : (t.retrieve servicePath headers).run n = (.error earlier, n₁)) :
    (run t servicePath headers main).run n =
      match (main headers).run n₁ with
      | (outcome, n') => ((outcome.mapError (·.after earlier), headers), n') := by
  unfold run
  rw [if_pos h, StateT.run_bind, ht]
  rfl

end

variable {listeners : List Listener} {call : Headers → Call}
  {made : Headers → Answer → Response} {main : Headers → Session (Except Failure Response)}

/-- **The main part is run once**, with the token if one was needed and could be had. If it fails
without a token that was needed, it remembers why there was none. -/
theorem run_of_oneCall (hmain : ∀ h, Session.OneCall listeners (call h) (made h) (main h))
    (t : TokenSource) (servicePath : String) (headers : Headers) (n : Network) :
    ∃ outcome token? n', (run t servicePath headers main).run n =
        ((outcome, headers.withToken token?), n') ∧
      t.Attempted servicePath headers n.replies (isNeeded t headers = true) token? outcome ∧
      n'.journal.events = n.journal.events ++
        (if isNeeded t headers then t.callsFor servicePath headers else []).map .called ++
        (call (headers.withToken token?)).told listeners := by
  cases hneeded : isNeeded t headers with
  | false =>
    obtain ⟨outcome, n', hrun, hevents, hdone⟩ := (hmain headers).events n
    refine ⟨outcome, none, n', ?_, TokenSource.attempted_of_not_needed Bool.false_ne_true hdone, ?_⟩
    · rw [run_of_not_needed main hneeded, hrun, withToken_none]
    · rw [if_neg Bool.false_ne_true, List.map_nil, List.append_nil, withToken_none, hevents]
  | true =>
    obtain ⟨n₁, hretrieve, hbefore⟩ := t.run_retrieve servicePath headers n
    rw [if_pos rfl, ← hbefore]
    cases hgot : t.outcome servicePath headers n.replies with
    | error earlier =>
      rw [hgot] at hretrieve
      obtain ⟨outcome, n', hrun, hevents, hdone⟩ := (hmain headers).events n₁
      refine ⟨outcome.mapError (·.after earlier), none, n', ?_,
        TokenSource.attempted_of_error rfl hgot hdone, ?_⟩
      · rw [run_of_no_token main hneeded hretrieve, hrun, withToken_none]
      · rw [withToken_none, hevents]
    | ok token =>
      rw [hgot] at hretrieve
      obtain ⟨outcome, n', hrun, hevents, hdone⟩ :=
        (hmain (headers.withToken (some token))).events n₁
      refine ⟨outcome, some token, n', ?_, TokenSource.attempted_of_ok rfl hgot hdone, hevents⟩
      rw [run_of_token main hneeded hretrieve, hrun]

end Handshake

end OData
