import OData.Handshake
import OData.Response.Decoding

/-!
# Executing requests

A request is sent in three steps: its URI is made, the token handshake is done if the operation
needs one, and the call goes out. Listeners are told of the call right before it and of the failure,
if there is one, after it. A response with a failing status is a failure.

From a response to a read request one can go on to the next page: the request for it is the first
one with the query of the link in place of its own.
-/

set_option autoImplicit false

namespace OData

open OData.Text

namespace Session

def visit {α : Type} (r : Response) (v : Visit α) : Session (α × Response) := fun n =>
  let ((a, r), journal) := (v.run r).run n.journal
  ((a, r), { n with journal })

def warn (ws : List Warning) : Session Unit := modify fun n => n.record (ws.map .warned)

/-- Makes a call of which listeners are told, and turns a fault into a failure of its request. -/
def call (listeners : List Listener) (l : Locus) (c : Call) : Session (Except Failure Answer) := do
  modify (·.announce listeners c)
  match ← send c with
  | .ok answer => return .ok answer
  | .error fault => return .error ((Failure.connection (.call c.method c.uri) fault).atRequest l)

/-- The response, unless its status is a failure. -/
def requireHealthy (r : Response) : Session (Except Failure Response) := do
  let (outcome, r) ← visit r Access.healthy.run
  return outcome.map fun _ => r

end Session

namespace Request

def executed (r : Request) (headers : Headers) : Request :=
  { r with context := { r.context with headers := headers } }

def callAt (r : Request) (uri : String) (headers : Headers) : Call :=
  ⟨r.method, uri, headers, r.operation.body?⟩

def sendWith (r : Request) (uri : String) (headers : Headers) :
    Session (Except Failure Response) := do
  let executed := r.executed headers
  match ← Session.call r.context.listeners executed.locus (r.callAt uri headers) with
  | .error f => return .error f
  | .ok answer => Session.requireHealthy (.of (some executed) executed.locus answer true)

/-- Sends the request, after the handshake if the operation needs one. -/
def sendPrepared (r : Request) (uri : String) : Session (Except Failure Response) := do
  let headers := r.sentHeaders
  if r.operation.modifies then
    return (← Handshake.run r.context.tokens r.context.servicePath headers (r.sendWith uri)).1
  else r.sendWith uri headers

def execute (r : Request) : Session (Except Failure Response) := do
  Session.warn r.warnings
  let outcome ←
    match r.uri .regular with
    | .error f => pure (.error (f.orAtRequest r.locus))
    | .ok uri => r.sendPrepared uri
  modify (·.reportError r.context.listeners outcome)
  return outcome

/-- The request for the page behind a link: a read with the query of the link in place of all
others. -/
def follow (r : Request) (link : String) : Request :=
  { context := { r.context with options := [] }
    path := r.path
    operation := .read (String.ofList ((Link.query? link.toList).getD [])) }

end Request

/-! ## Further pages -/

namespace Access

def nextRequest : Access (Option Request) := do
  match ← nextLink with
  | none => return none
  | some link =>
    let r ← get
    match r.request.filter (·.operation.isRead) with
    | none => fail (.construction .notPaged)
    | some request =>
      if r.online then return some (request.follow link) else fail (.construction .noTransport)

end Access

namespace Response

/-- Executes the request for the next page. Also gives the response after reading its link. -/
def nextPage (r : Response) : Session (Except Failure Response × Response) := do
  let (next, r) ← Session.visit r Access.nextRequest.run
  match next with
  | .error f => return (.error f, r)
  | .ok none => return (.error ((Failure.construction .lastPage).orAtRequest r.locus), r)
  | .ok (some request) => return (← request.execute, r)

end Response

end OData
