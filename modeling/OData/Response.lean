import OData.Body
import OData.MediaType
import OData.Request

/-!
# Responses

What comes of executing a request: a status, headers and a body that is read lazily. Reading
changes the response, as it uses up or buffers the body, so the operations on it are steps of a
small state machine: a `Visit` changes a response and keeps a journal, and an `Access` is a visit
that may fail. Failures of an access carry the request that the response belongs to.
-/

set_option autoImplicit false

namespace OData

open OData.Text

structure Response where
  /-- The request as it was executed, if this is the response to a single one. -/
  request : Option Request
  locus : Locus
  status : Nat
  reason : String
  headers : Headers
  hasEntity : Bool
  body : Body
  /-- Whether there is a transport to ask for further pages. -/
  online : Bool
  /-- The handlers to run on closing, oldest first. -/
  handlers : List String
  closed : Bool

/-- A change to a response that may be seen from outside. -/
abbrev Visit (α : Type) := StateT Response (StateM Journal) α

abbrev Access (α : Type) := ExceptT Failure (StateT Response (StateM Journal)) α

namespace Response

/-- The response made of an answer. Its body is buffered unless its request says otherwise. -/
def of (request : Option Request) (locus : Locus) (answer : Answer) (online : Bool) : Response :=
  { request := request
    locus := locus
    status := answer.status
    reason := answer.reason
    headers := answer.headers
    hasEntity := answer.body.isSome
    body := .ofSource ((request.map (·.context.buffering)).getD true) answer.body
    online := online
    handlers := []
    closed := false }

def protocol (r : Response) : Protocol := r.locus.protocol

/-- The version of the entity: the first `ETag` that is not empty. -/
def version? (r : Response) : Option String :=
  (r.headers.getAll "ETag").find? (· != "")

def isPlainText (r : Response) : Bool :=
  match (r.headers.get? "Content-Type").bind MediaType.parse? with
  | some m => m.essence == "text/plain"
  | none => false

end Response

/-! ## Access to the body -/

namespace Access

def fail {α : Type} (f : Failure) : Access α := do
  let r ← get
  throw (f.orAtRequest r.locus)

/-- Notes that `n` bytes were pulled from a source. -/
def pull (s : Source) (n : Nat) : Access Unit := modifyThe Journal (·.pull s n)

def source : Access Source := do
  let r ← get
  let j ← getThe Journal
  let (outcome, body, j) := r.body.access j
  set { r with body := body }
  set j
  match outcome with
  | .ok s => return s
  | .error .noEntity => fail (.unreadable .noContent)
  | .error .alreadyConsumed => fail (.unreadable .alreadyConsumed)
  | .error .broken => fail (.connection .buffering .broken)

def bytes : Access (List UInt8) := do
  let s ← source
  pull s s.rest.length
  if s.breaksOff then fail (.connection .reading .broken) else return s.rest

def text : Access String := return Utf8.toStringLossy (← bytes)

/-- The first `n` bytes of the content, and whether the stream broke off before. -/
def firstBytes (n : Nat) : Access (List UInt8 × Bool) := do
  let s ← source
  let taken := s.rest.take n
  pull s taken.length
  return (taken, s.breaksOff && s.rest.length < n)

def entity : Access Unit := do
  let r ← get
  if r.hasEntity then return () else fail (.unreadable (.noPayload r.protocol))

/-- Fails because the content has another form than the one asked for. -/
def wrongShape {α : Type} : Access α := do
  let r ← get
  fail (.unreadable (.wrongShape r.protocol))

end Access

/-! ## Health and closing -/

namespace Response

/-- The failure of a response with a status of 400 and above, from its body if it could be read. -/
def unhealthy (r : Response) (body : Option (List UInt8)) : Failure :=
  let text := body.map Utf8.toStringLossy
  match body.bind (ServiceError.parse? r.protocol) with
  | some e => .of (.service r.status e text)
  | none => .of (.unhealthy r.status text)

end Response

namespace Access

/-- Fails for a status of 400 and above, with the service's own error if the body holds one. -/
def healthy : Access Unit := do
  let r ← get
  if r.status < 400 then return ()
  else
    let body ←
      if r.hasEntity then
        try pure (some (← bytes)) catch _ => pure none
      else pure none
    fail (r.unhealthy body)

end Access

namespace Visit

/-- Turns buffering off, or warns that it is too late. -/
def disableBuffering : Visit Unit := do
  let r ← get
  match r.body.withoutBuffering? with
  | some body => set { r with body := body }
  | none => modifyThe Journal (·.warn [.bufferingTooLate])

/-- Adds a handler that the first closing runs. -/
def onClose (label : String) : Visit Unit :=
  modify fun r => { r with handlers := r.handlers ++ [label] }

end Visit

namespace Access

/-- Releases the response: pulls a body that has not been touched and runs the handlers. Only the
first closing does anything. -/
def close : Access Unit := do
  let r ← get
  if r.closed then return ()
  else
    let (broke, body, j) := r.body.drain (← getThe Journal)
    set (j.record (r.handlers.map .closed))
    set { r with body := body, handlers := [], closed := true }
    if broke then fail (.connection .draining .broken) else return ()

end Access

end OData
