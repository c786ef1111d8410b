import OData.Batch.Execution
import OData.Proofs.Handshake.Retrieval
import OData.Proofs.Request.Execution

/-!
# The calls of an execution

What a request and a batch send is put together in the same way (`Sending`): a batch is sent like a
request that changes the service. All that is seen of an execution is known from it
(`Sending.shows_run`). Warnings and what listeners are told are no calls, so all calls of an execution
are those of its handshake.

**An execution calls the service for a token exactly if one is needed and is to be had there, and
then makes its own call exactly once** (`calls_of_execute`); it makes none if it has no URI. That
call is spelled out: its method and its body by the kind of the operation (`Operation.message`), and
its headers by those that are stored, those that are added and the token (`Request.Heads`,
`Batch.Heads`).
-/

set_option autoImplicit false

namespace OData

open OData.Text

/-! ## Operations -/

namespace Operation

/-- What is sent for an operation. -/
structure Message where
  method : Method
  body? : Option String
  /-- The version of the entity that it is meant for. -/
  version? : Option String
  /-- Whether it may change the state of the service. -/
  changes : Bool

/-- What is sent for each kind of operation. Creations, updates, deletions and actions may change the
state of the service, and no others may. -/
def message : Operation → Message
  | read _ | readByKey _ | function _ | count _ => ⟨.get, none, none, false⟩
  | create entity => ⟨.post, some entity, none, true⟩
  | update entity .modify version => ⟨.patch, some entity, version, true⟩
  | update entity .replace version => ⟨.put, some entity, version, true⟩
  | delete version => ⟨.delete, none, version, true⟩
  | action arguments => ⟨.post, some arguments, none, true⟩

theorem message_eq (o : Operation) : o.message = ⟨o.method, o.body?, o.version?, o.modifies⟩ := by
  cases o with
  | update entity mode version => cases mode <;> rfl
  | _ => rfl

end Operation

/-! ## Headers -/

/-- The entry that a token is sent in. -/
def tokenEntries (token? : Option String) : List Headers.Entry :=
  token?.toList.map fun token => ⟨"x-csrf-token", [token]⟩

namespace Headers

theorem entries_withToken (h : Headers) (token? : Option String) :
    (h.withToken token?).entries = h.entries ++ tokenEntries token? := rfl

/-- The values of all other names are the same with the token. -/
theorem getAll_withToken (h : Headers) (token? : Option String) {name : String}
    (hname : sameName name "x-csrf-token" = false) : (h.withToken token?).getAll name =
      h.getAll name := by
  have hother : (tokenEntries token?).find? (sameName name ·.name) = none := by
    cases token? with
    | none => rfl
    | some token => exact List.find?_cons_of_neg (by simp [hname])
  rw [getAll, getAll, entry?, entry?, entries_withToken, List.find?_append, hother, Option.or_none]

end Headers

namespace Request

/-- The entries that a request adds to its stored headers, each where the name is absent. -/
def addedEntries (q : Request) : List Headers.Entry :=
  (if q.operation.message.body?.isSome && !q.context.headers.contains "Content-Type" then
    [⟨"Content-Type", ["application/json"]⟩] else []) ++
  match q.operation.message.version? with
  | some version =>
    if q.context.headers.contains "If-Match" then [] else [⟨"If-Match", [version]⟩]
  | none => []

theorem entries_sentHeaders (q : Request) :
    q.sentHeaders.entries = q.context.headers.entries ++ q.addedEntries := by
  have htyped : ∀ h : Headers, (if q.operation.body?.isSome then
      h.insertIfAbsent "Content-Type" Context.jsonType else h).entries = h.entries ++
        if q.operation.body?.isSome && !h.contains "Content-Type" then
          [⟨"Content-Type", ["application/json"]⟩] else [] := by
    intro h
    cases q.operation.body?.isSome with
    | false => exact (List.append_nil _).symm
    | true =>
      rw [if_pos rfl, Headers.entries_insertIfAbsent]
      cases h.contains "Content-Type" <;> rfl
  have hversion : ∀ h : Headers, (if q.operation.body?.isSome then
      h.insertIfAbsent "Content-Type" Context.jsonType else h).contains "If-Match" =
        h.contains "If-Match" := by
    intro h
    split
    · exact Headers.contains_insertIfAbsent_of_ne (by decide) h _
    · rfl
  unfold sentHeaders addedEntries
  rw [q.operation.message_eq]
  dsimp only
  rw [← List.append_assoc, ← htyped]
  cases q.operation.version? with
  | none => exact (List.append_nil _).symm
  | some version => rw [Headers.entries_insertIfAbsent, hversion]

/-- Nothing that a request adds is a token. -/
theorem contains_sentHeaders (q : Request) :
    q.sentHeaders.contains TokenSource.header = q.context.headers.contains TokenSource.header := by
  have hversion : sameName TokenSource.header "If-Match" = false := by decide
  have hadded : q.addedEntries.any (sameName TokenSource.header ·.name) = false := by
    unfold addedEntries
    rw [List.any_append, Bool.or_eq_false_iff]
    constructor
    · split
      · decide
      · rfl
    · split
      · split
        · rfl
        · exact (Bool.or_false _).trans hversion
      · rfl
  rw [Headers.contains, entries_sentHeaders, List.any_append, hadded, Bool.or_false]
  rfl

/-- The headers that a request is sent with: all that are stored, as they are, and then those that it
adds and the token. -/
def Heads (q : Request) (token? : Option String) (h : Headers) : Prop :=
  h.entries = q.context.headers.entries ++ q.addedEntries ++ tokenEntries token?

theorem heads_sentHeaders (q : Request) (token? : Option String) :
    q.Heads token? (q.sentHeaders.withToken token?) := by
  rw [Heads, Headers.entries_withToken, entries_sentHeaders]

end Request

namespace Batch

/-- Nothing that a batch sets is a token. -/
theorem contains_sentHeaders (b : Batch) :
    b.sentHeaders.contains TokenSource.header = b.context.headers.contains TokenSource.header := by
  unfold sentHeaders
  rw [Headers.contains_insert, Headers.contains_insert, Bool.or_assoc]
  exact (congrArg _ (by decide)).trans (Bool.or_false _)

/-- Whether an entry is one of those that a batch sets for itself. -/
def setsEntry (e : Headers.Entry) : Bool :=
  sameName "Content-Type" e.name || sameName "OData-Version" e.name

/-- A batch leaves all other headers as they are. -/
theorem filter_sentHeaders (b : Batch) :
    b.sentHeaders.entries.filter (!setsEntry ·) = b.context.headers.entries.filter (!setsEntry ·) := by
  have hout : ∀ e : Headers.Entry, (!setsEntry e) = true →
      sameName "Content-Type" e.name = false ∧ sameName "OData-Version" e.name = false := by
    intro e he
    rw [Bool.not_eq_true', setsEntry, Bool.or_eq_false_iff] at he
    exact he
  unfold sentHeaders
  rw [Headers.filter_insert _ _ _ fun e he => (hout e he).2,
    Headers.filter_insert _ _ _ fun e he => (hout e he).1]

theorem getAll_sentHeaders (b : Batch) :
    b.sentHeaders.getAll "Content-Type" = ["multipart/mixed;boundary=" ++ b.boundary] ∧
      b.sentHeaders.getAll "OData-Version" = [b.context.protocol.version] := by
  unfold sentHeaders
  constructor
  · rw [Headers.getAll_insert, if_neg (by decide), Headers.getAll_insert, if_pos (sameName_self _)]
  · rw [Headers.getAll_insert, if_pos (sameName_self _)]

/-- The headers that a batch is sent with: two that it sets for itself, and all others that are
stored, as they are, with the token behind them. -/
structure Heads (b : Batch) (token? : Option String) (h : Headers) : Prop where
  kept : h.entries.filter (!setsEntry ·) =
    b.context.headers.entries.filter (!setsEntry ·) ++ tokenEntries token?
  type : h.getAll "Content-Type" = ["multipart/mixed;boundary=" ++ b.boundary]
  version : h.getAll "OData-Version" = [b.context.protocol.version]

theorem heads_sentHeaders (b : Batch) (token? : Option String) :
    b.Heads token? (b.sentHeaders.withToken token?) := by
  obtain ⟨htype, hversion⟩ := b.getAll_sentHeaders
  have htoken : (tokenEntries token?).filter (!setsEntry ·) = tokenEntries token? := by
    refine List.filter_eq_self.mpr ?_
    intro e he
    obtain ⟨token, -, rfl⟩ := List.mem_map.mp he
    show (!(sameName "Content-Type" "x-csrf-token" || sameName "OData-Version" "x-csrf-token")) =
      true
    decide
  refine ⟨?_, ?_, ?_⟩
  · rw [Headers.entries_withToken, List.filter_append, filter_sentHeaders, htoken]
  · rw [Headers.getAll_withToken _ _ (by decide), htype]
  · rw [Headers.getAll_withToken _ _ (by decide), hversion]

end Batch

/-! ## Own calls -/

/-- The own call of a request. -/
structure Request.Sends (q : Request) (uri : String) (token? : Option String) (c : Call) :
    Prop where
  method : c.method = q.operation.message.method
  uri : c.uri = uri
  headers : q.Heads token? c.headers
  body : c.body = q.operation.message.body?

/-- The own call of a batch. -/
structure Batch.Sends (b : Batch) (uri : String) (token? : Option String) (c : Call) : Prop where
  method : c.method = .post
  uri : c.uri = uri
  headers : b.Heads token? c.headers
  body : c.body = some b.body

theorem Request.sends_callAt (q : Request) (uri : String) (token? : Option String) :
    q.Sends uri token? (q.callAt uri (q.sentHeaders.withToken token?)) where
  method := congrArg Operation.Message.method q.operation.message_eq.symm
  uri := rfl
  headers := q.heads_sentHeaders token?
  body := congrArg Operation.Message.body? q.operation.message_eq.symm

theorem Batch.sends_callAt (b : Batch) (uri : String) (token? : Option String) :
    b.Sends uri token? (b.callAt uri (b.sentHeaders.withToken token?)) where
  method := rfl
  uri := rfl
  headers := b.heads_sentHeaders token?
  body := rfl

/-! ## Sending -/

/-- What an execution sends. -/
structure Sending where
  context : Context
  /-- Whether the state of the service may change. -/
  modifies : Bool
  uri : Except Failure String
  headers : Headers
  call : String → Headers → Call

def Request.sending (q : Request) : Sending :=
  ⟨q.context, q.operation.modifies, q.uri .regular, q.sentHeaders, q.callAt⟩

def Batch.sending (b : Batch) : Sending :=
  ⟨b.context, true, b.uri .regular, b.sentHeaders, b.callAt⟩

namespace Sending

/-- Whether a token is to be had first: there may be a change, tokens are not disabled, and none is
stored. -/
def NeedsToken (s : Sending) : Prop :=
  s.modifies = true ∧ s.context.tokens.isEnabled = true ∧
    s.context.headers.contains TokenSource.header = false

/-- The calls before its own one: the service is asked for a token at its root, with the headers that
are sent but without `Accept`. -/
def preflight (s : Sending) : List Call :=
  match s.context.tokens with
  | .fetch =>
    if s.modifies && !s.context.headers.contains "x-csrf-token" then
      [{ method := .head
         uri := String.ofList (Link.serviceRoot .regular s.context.servicePath.toList)
         headers := (s.headers.erase "Accept").insert "x-csrf-token" "fetch"
         body := none }]
    else []
  | .disabled | .supplied _ => []

/-- What is seen of an execution: what came of it, and the network afterwards. The own call is known
by its URI and its token. -/
structure Makes {α : Type} (s : Sending) (sends : String → Option String → Call → Prop)
    (n : Network) (ran : Except Failure α × Network) : Prop where
  /-- Nothing is sent without a URI. -/
  silent : ∀ f, s.uri = .error f → ran.2.journal.calls = n.journal.calls
  /-- A token is asked for if need be; then comes the call itself, with the token that was got. -/
  calls : ∀ uri, s.uri = .ok uri → ∃ token? own,
    s.context.tokens.Attempted s.context.servicePath s.headers n.replies s.NeedsToken token? ran.1 ∧
    sends uri token? own ∧
    ran.2.journal.calls = n.journal.calls ++ s.preflight ++ [own]

/-- The handshake of an execution, if it is one that may change something. -/
def prepared (s : Sending) (main : Headers → Session (Except Failure Response)) :
    Session (Except Failure Response) :=
  if s.modifies then do
    return (← Handshake.run s.context.tokens s.context.servicePath s.headers main).1
  else main s.headers

variable {s : Sending}

/-- A token is needed or not by what is sent, which has one exactly if one is stored. -/
theorem isNeeded_iff (hm : s.modifies = true)
    (hsame : s.headers.contains TokenSource.header =
      s.context.headers.contains TokenSource.header) :
    Handshake.isNeeded s.context.tokens s.headers = true ↔ s.NeedsToken := by
  unfold Handshake.isNeeded NeedsToken
  rw [Bool.and_eq_true, Bool.not_eq_true', hsame]
  exact ⟨fun h => ⟨hm, h⟩, fun h => h.2⟩

theorem preflight_of_modifies (hm : s.modifies = true)
    (hsame : s.headers.contains TokenSource.header =
      s.context.headers.contains TokenSource.header) :
    s.preflight = if Handshake.isNeeded s.context.tokens s.headers then
      s.context.tokens.callsFor s.context.servicePath s.headers else [] := by
  unfold preflight Handshake.isNeeded
  rw [hm, hsame]
  cases s.context.tokens with
  | fetch => rfl
  | disabled => rfl
  | supplied retrieve => exact (ite_self _).symm

/-- **The handshake of an execution**: the calls before its own one, and then that one. -/
theorem run_prepared {listeners : List Listener} {call : Headers → Call}
    {made : Headers → Answer → Response} {main : Headers → Session (Except Failure Response)}
    (hmain : ∀ h, Session.OneCall listeners (call h) (made h) (main h))
    (hsame : s.headers.contains TokenSource.header =
      s.context.headers.contains TokenSource.header) (n : Network) :
    ∃ outcome token? n', (s.prepared main).run n = (outcome, n') ∧
      s.context.tokens.Attempted s.context.servicePath s.headers n.replies s.NeedsToken token?
        outcome ∧
      n'.journal.events = n.journal.events ++ s.preflight.map .called ++
        (call (s.headers.withToken token?)).told listeners := by
  unfold prepared
  cases hm : s.modifies with
  | false =>
    obtain ⟨outcome, n', hrun, hevents, hdone⟩ := (hmain s.headers).events n
    have hneeds : ¬ s.NeedsToken := by
      rintro ⟨h, -⟩
      rw [hm] at h
      cases h
    have hpreflight : s.preflight = [] := by
      unfold preflight
      rw [hm]
      split <;> rfl
    refine ⟨outcome, none, n', hrun, TokenSource.attempted_of_not_needed hneeds hdone, ?_⟩
    rw [hpreflight, List.map_nil, List.append_nil, Handshake.withToken_none, hevents]
  | true =>
    obtain ⟨outcome, token?, n', hrun, hattempted, hevents⟩ := Handshake.run_of_oneCall hmain
      s.context.tokens s.context.servicePath s.headers n
    rw [isNeeded_iff hm hsame] at hattempted
    rw [← preflight_of_modifies hm hsame] at hevents
    refine ⟨outcome, token?, n', ?_, hattempted, hevents⟩
    rw [if_pos rfl, StateT.run_bind, hrun]
    rfl

/-- What is seen of sending, with a token if there is one: the calls before its own one, and that
one, of which the listeners are told. Nothing is seen without a URI. -/
def events (s : Sending) (token? : Option String) : List Event :=
  match s.uri with
  | .error _ => []
  | .ok uri =>
    s.preflight.map .called ++ (s.call uri (s.headers.withToken token?)).told s.context.listeners

end Sending

/-! ## Executions -/

theorem Network.calls_record_map {α : Type} (n : Network) (f : α → Event)
    (h : ∀ a c, f a ≠ .called c) (as : List α) :
    (n.record (as.map f)).journal.calls = n.journal.calls := by
  rw [Journal.calls_of_events (show _ = _ ++ as.map f from rfl), Journal.callsIn_map f h,
    List.append_nil]

theorem callsIn_reports {α : Type} (listeners : List Listener) (outcome : Except Failure α) :
    Journal.callsIn ((failureIn outcome).toList.flatMap (·.told listeners)) = [] := by
  cases outcome with
  | ok a => rfl
  | error f =>
    refine (congrArg Journal.callsIn (List.append_nil _)).trans (Journal.callsIn_map _ ?_ listeners)
    intro l c h
    cases h

/-- Telling listeners of a failure is no call. -/
theorem Network.calls_reportError {α : Type} (n : Network) (listeners : List Listener)
    (outcome : Except Failure α) :
    (n.reportError listeners outcome).journal.calls = n.journal.calls := by
  rw [Journal.calls_of_events (n.events_reportError listeners outcome), callsIn_reports,
    List.append_nil]

/-- All that is seen of an execution: warnings, the sending, and at the end the failure. The token is
what came of trying to get one. -/
def Sending.Shows {α : Type} (s : Sending) (warnings : List Warning) (n : Network)
    (ran : Except Failure α × Network) : Prop :=
  ∃ token?,
    (∀ uri, s.uri = .ok uri → s.context.tokens.Attempted s.context.servicePath s.headers n.replies
      s.NeedsToken token? ran.1) ∧
    ran.2.journal.events = n.journal.events ++ (warnings.map .warned ++ s.events token? ++
      (failureIn ran.1).toList.flatMap (·.told s.context.listeners))

theorem Sending.Shows.makes {α : Type} {s : Sending} {warnings : List Warning} {n : Network}
    {ran : Except Failure α × Network} (h : s.Shows warnings n ran)
    {sends : String → Option String → Call → Prop}
    (hsends : ∀ uri token?, sends uri token? (s.call uri (s.headers.withToken token?))) :
    s.Makes sends n ran := by
  obtain ⟨token?, hattempted, hevents⟩ := h
  have hwarned : Journal.callsIn (warnings.map .warned) = [] := by
    refine Journal.callsIn_map _ ?_ warnings
    intro w c h
    cases h
  have hcalls := Journal.calls_of_events hevents
  rw [Journal.callsIn_append, Journal.callsIn_append, hwarned, callsIn_reports, List.nil_append,
    List.append_nil, events] at hcalls
  constructor
  · intro f hu
    rw [hu] at hcalls
    exact hcalls.trans (List.append_nil _)
  · intro uri hu
    rw [hu] at hcalls
    dsimp only at hcalls
    rw [Journal.callsIn_append, Journal.callsIn_map_called, Call.callsIn_told, ← List.append_assoc]
      at hcalls
    exact ⟨token?, _, hattempted uri hu, hsends uri token?, hcalls⟩

/-- Any execution is of this kind: after the warnings, its sending is done if there is a URI, and
then the listeners are told of a failure. -/
theorem Sending.shows_run {s : Sending} {made : Headers → Answer → Response}
    {main : String → Headers → Session (Except Failure Response)}
    (hmain : ∀ uri h, Session.OneCall s.context.listeners (s.call uri h) (made h) (main uri h))
    (hsame : s.headers.contains TokenSource.header =
      s.context.headers.contains TokenSource.header) (l : Locus) (warnings : List Warning)
    (n n₁ : Network) (hreplies : n₁.replies = n.replies)
    (hwarned : n₁.journal.events = n.journal.events ++ warnings.map .warned) :
    ∃ outcome n', (match s.uri with
        | .error f => pure (.error (f.orAtRequest l))
        | .ok uri => s.prepared (main uri) : Session (Except Failure Response)).run n₁ =
          (outcome, n') ∧
      s.Shows warnings n (outcome, n'.reportError s.context.listeners outcome) := by
  unfold Shows
  cases hu : s.uri with
  | error f =>
    have hevents : s.events none = [] := by
      unfold events
      rw [hu]
    refine ⟨_, n₁, rfl, none, ?_, ?_⟩
    · intro uri h
      cases h
    · rw [Network.events_reportError, hevents, List.append_nil, hwarned, List.append_assoc]
  | ok uri =>
    obtain ⟨outcome, token?, n', hrun, hattempted, hsent⟩ := run_prepared (hmain uri) hsame n₁
    have hevents : s.events token? =
        s.preflight.map .called ++ (s.call uri (s.headers.withToken token?)).told
          s.context.listeners := by
      unfold events
      rw [hu]
    rw [hreplies] at hattempted
    refine ⟨outcome, n', hrun, token?, fun _ _ => hattempted, ?_⟩
    rw [Network.events_reportError, hsent, hevents, hwarned]
    simp only [List.append_assoc]

theorem Request.shows (q : Request) (n : Network) :
    q.sending.Shows q.warnings n (q.execute.run n) := by
  obtain ⟨outcome, n', hrun, hshows⟩ := Sending.shows_run (s := q.sending) q.oneCall_sendWith
    q.contains_sentHeaders q.locus q.warnings n (n.record (q.warnings.map .warned)) rfl rfl
  have hexec : q.execute.run n = (outcome, n'.reportError q.context.listeners outcome) := by
    rw [run_execute]
    exact congrArg (fun x => (x.1, x.2.reportError q.context.listeners x.1)) hrun
  rw [hexec]
  exact hshows

theorem Request.makes (q : Request) (n : Network) : q.sending.Makes q.Sends n (q.execute.run n) :=
  (q.shows n).makes q.sends_callAt

theorem Batch.oneCall_sendWith (b : Batch) (uri : String) (headers : Headers) :
    Session.OneCall b.context.listeners (b.callAt uri headers)
      (fun a => { Response.of none b.locus a true with
        body := { (Response.of none b.locus a true).body with buffering := b.context.buffering } })
      (b.sendWith uri headers) :=
  Session.oneCall _ _ _ _

theorem Batch.run_execute (b : Batch) (n : Network) :
    b.execute.run n =
      match (match b.uri .regular with
        | .error f => pure (.error (f.orAtRequest b.locus))
        | .ok uri => b.sending.prepared (b.sendWith uri) : Session (Except Failure Response)).run
          n with
      | (outcome, n') =>
        (outcome.map (⟨·, b⟩), n'.reportError b.context.listeners outcome) := by
  unfold execute
  cases b.uri .regular <;> rfl

theorem Batch.shows (b : Batch) (n : Network) : b.sending.Shows [] n (b.execute.run n) := by
  obtain ⟨outcome, n', hrun, token?, hattempted, hevents⟩ := Sending.shows_run (s := b.sending)
    b.oneCall_sendWith b.contains_sentHeaders b.locus [] n n rfl (List.append_nil _).symm
  have hexec : b.execute.run n =
      (outcome.map (⟨·, b⟩), n'.reportError b.context.listeners outcome) := by
    rw [run_execute]
    exact congrArg
      (fun x => (x.1.map (BatchResponse.mk · b), x.2.reportError b.context.listeners x.1)) hrun
  rw [hexec]
  refine ⟨token?, fun uri hu => (hattempted uri hu).map _, ?_⟩
  rw [failureIn_map]
  exact hevents

theorem Batch.makes (b : Batch) (n : Network) : b.sending.Makes b.Sends n (b.execute.run n) :=
  (b.shows n).makes b.sends_callAt

/-- **The calls of any execution**, with all that its own call carries: a request sends its stored
headers and what it adds where that is absent, a batch sets two headers for itself and leaves the
others as they are, and either sends the token that it got. The call for a token is made with the
same headers. It is made for operations of certain kinds, and for every batch. -/
theorem calls_of_execute (n : Network) :
    (∀ q : Request, q.sending.Makes q.Sends n (q.execute.run n) ∧
      q.Heads none q.sending.headers ∧ q.sending.modifies = q.operation.message.changes) ∧
    ∀ b : Batch, b.sending.Makes b.Sends n (b.execute.run n) ∧
      b.Heads none b.sending.headers ∧ b.sending.modifies = true := by
  constructor
  · intro q
    have hheads := q.heads_sentHeaders none
    rw [Handshake.withToken_none] at hheads
    exact ⟨q.makes n, hheads, congrArg Operation.Message.changes q.operation.message_eq.symm⟩
  · intro b
    have hheads := b.heads_sentHeaders none
    rw [Handshake.withToken_none] at hheads
    exact ⟨b.makes n, hheads, rfl⟩

def createPerson : Request :=
  let q := Request.of "/service/" (.of "People") .v4 (.create "[]")
  { q with context := { q.context with
    headers := ⟨[⟨"Accept", ["application/json"]⟩, ⟨"Authorization", ["Basic abc"]⟩]⟩ } }

def tokenThenCreated : Network :=
  .scripted [.ok ⟨200, "OK", .ofPairs [("X-CSRF-Token", " foobar ")], none⟩,
    .ok ⟨201, "Created", .empty, none⟩]

/-- The token is in the first reply, with blanks around it. -/
theorem gives_tokenThenCreated (servicePath : String) (headers : Headers) :
    TokenSource.fetch.Gives servicePath headers tokenThenCreated.replies "foobar" := by
  have htrimmed : trimmed " foobar " = "foobar" := by decide +kernel
  rw [← htrimmed]
  exact .fetched rfl (by decide) (by decide +kernel) (by decide +kernel)

/-- A batch that is given a content type, as if it could have any. -/
def peopleBatch : Batch :=
  let b := (Batch.of "/service/" .v4 fun _ => ⟨0, 0⟩).change (.setHeader "Authorization" "Basic abc")
  { b.change (.addHeader "content-type" "text/plain") with
    parts := [.single ⟨1, .of "/service/" (.of "People") .v4 (.read ""), "People"⟩] }

/-- The call for its token. -/
def peopleTokenCall : Call :=
  ⟨.head, "/service/", ⟨[⟨"Authorization", ["Basic abc"]⟩,
    ⟨"content-type", ["multipart/mixed;boundary=batch_00000000-0000-0000-0000-000000000000"]⟩,
    ⟨"OData-Version", ["4.0"]⟩, ⟨"x-csrf-token", ["fetch"]⟩]⟩, none⟩

def refusedThenAccepted : Network :=
  .scripted [.ok ⟨403, "Forbidden", .empty, none⟩, .ok ⟨202, "Accepted", .empty, none⟩]

/-- No token comes of a refused call. -/
theorem not_gives_refusedThenAccepted (servicePath : String) (headers : Headers) (token : String) :
    ¬ TokenSource.fetch.Gives servicePath headers refusedThenAccepted.replies token := by
  intro h
  cases h with
  | fetched reply healthy named filled =>
    cases reply
    exact absurd healthy (by decide)

/-- A creation asks for a token, which it sends behind its own headers. A batch that is refused one
is sent without it, and with a content type of its own in place of the one that it was given. -/
theorem calls_of_execute_people :
    (createPerson.execute.run tokenThenCreated).2.journal.calls =
      [⟨.head, "/service/", ⟨[⟨"Authorization", ["Basic abc"]⟩,
          ⟨"Content-Type", ["application/json"]⟩, ⟨"x-csrf-token", ["fetch"]⟩]⟩, none⟩,
        ⟨.post, "/service/People", ⟨[⟨"Accept", ["application/json"]⟩,
          ⟨"Authorization", ["Basic abc"]⟩, ⟨"Content-Type", ["application/json"]⟩,
          ⟨"x-csrf-token", ["foobar"]⟩]⟩, some "[]"⟩] ∧
    ∃ own, (peopleBatch.execute.run refusedThenAccepted).2.journal.calls =
        [peopleTokenCall, own] ∧
      own.method = .post ∧ own.uri = "/service/$batch" ∧ own.body = some peopleBatch.body ∧
      own.headers.entries.filter (!Batch.setsEntry ·) = [⟨"Authorization", ["Basic abc"]⟩] ∧
      own.headers.getAll "Content-Type" =
        ["multipart/mixed;boundary=batch_00000000-0000-0000-0000-000000000000"] := by
  constructor
  · have huri : createPerson.uri .regular = .ok "/service/People" :=
      eq_ok_of_toOption (by decide +kernel)
    obtain ⟨token?, ⟨method, uri, ⟨entries⟩, body⟩, hattempted, hown, hcalls⟩ :=
      ((calls_of_execute tokenThenCreated).1 createPerson).1.calls _ huri
    have htoken : token? = some "foobar" :=
      (hattempted.got _).mpr ⟨⟨rfl, rfl, by decide +kernel⟩, gives_tokenThenCreated _ _⟩
    obtain rfl : method = .post := hown.method
    obtain rfl : uri = "/service/People" := hown.uri
    obtain rfl : body = some "[]" := hown.body
    obtain rfl : entries = _ := hown.headers
    rw [hcalls, htoken]
    decide +kernel
  · have huri : peopleBatch.uri .regular = .ok "/service/$batch" :=
      eq_ok_of_toOption (by decide +kernel)
    obtain ⟨token?, own, hattempted, hown, hcalls⟩ :=
      ((calls_of_execute refusedThenAccepted).2 peopleBatch).1.calls _ huri
    have htoken : token? = none := by
      rw [Option.eq_none_iff_forall_ne_some]
      intro token hgot
      exact not_gives_refusedThenAccepted _ _ token ((hattempted.got token).mp hgot).2
    rw [htoken] at hown
    have hpreflight : peopleBatch.sending.preflight = [peopleTokenCall] := by decide +kernel
    refine ⟨own, ?_, hown.method, hown.uri, hown.body, ?_, ?_⟩
    · rw [hcalls, hpreflight]
      rfl
    · rw [hown.headers.kept]
      decide +kernel
    · rw [hown.headers.type]
      decide +kernel

end OData
