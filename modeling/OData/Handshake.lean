import OData.Request

/-!
# The token handshake

Requests that change the state of a service need an anti-forgery token in the header
`x-csrf-token`. `Handshake.run` gets one before the request itself, unless tokens are disabled or
the headers have one, and puts it into the headers. The request is made in any case; if it fails
after the token could not be had, its failure remembers that one too.
-/

set_option autoImplicit false

namespace OData

open OData.Text

abbrev Session (α : Type) := StateM Network α

namespace Session

def send (c : Call) : Session Reply := fun n => n.send c

/-- Pulls a source to its end, whether or not it breaks off. -/
def drain (s : Source) : Session Unit :=
  modify fun n => { n with journal := n.journal.pull s s.rest.length }

end Session

namespace TokenSource

/-- The header that carries the token, in both directions. -/
def header : String := "x-csrf-token"

/-- The call that asks for a token: the root of the service, with the headers of the request except
for `Accept`. -/
def tokenCall (servicePath : String) (headers : Headers) : Call :=
  { method := .head
    uri := String.ofList (Link.serviceRoot .regular servicePath.toList)
    headers := (headers.erase "Accept").insert header "fetch"
    body := none }

def tokenIn (call : Call) (a : Answer) : Except Failure String :=
  if 400 ≤ a.status then .error (.of (.unhealthy a.status none))
  else
    match (a.headers.get? header).map trimmed with
    | some token =>
      if token = "" then .error (.unreadable (.noToken call.uri)) else .ok token
    | none => .error (.unreadable (.noToken call.uri))

def retrieve (t : TokenSource) (servicePath : String) (headers : Headers) :
    Session (Except Failure String) := do
  match t with
  | disabled => return .error (.construction .tokensDisabled)
  | supplied f => return f servicePath headers
  | fetch =>
    let call := tokenCall servicePath headers
    match ← Session.send call with
    | .error fault => return .error (.connection (.tokenCall call.uri) fault)
    | .ok answer =>
      if let some s := answer.body then Session.drain s
      return tokenIn call answer

end TokenSource

namespace Handshake

/-- Whether a token is to be had before a request with these headers. -/
def isNeeded (t : TokenSource) (headers : Headers) : Bool :=
  t.isEnabled && !headers.contains TokenSource.header

/-- Runs `main` with a token in the headers. Gives its outcome and the headers it was run with. -/
def run {α : Type} (t : TokenSource) (servicePath : String) (headers : Headers)
    (main : Headers → Session (Except Failure α)) : Session (Except Failure α × Headers) := do
  if isNeeded t headers then
    match ← t.retrieve servicePath headers with
    | .ok token =>
      let headers := headers.insert TokenSource.header token
      return (← main headers, headers)
    | .error earlier =>
      return ((← main headers).mapError (·.after earlier), headers)
  else return (← main headers, headers)

end Handshake

end OData
