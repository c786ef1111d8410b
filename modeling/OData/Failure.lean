import OData.Message
import OData.ServiceError
import OData.Text.Decimal

/-!
# Failures

Why an operation of the client fails. A `Failure` has a cause, possibly the request it belongs to,
and possibly further failures that came before it. Causes are values; `Cause.message` and the
functions it uses put them into words.
-/

set_option autoImplicit false

namespace OData

open OData.Text

/-! ## The request a failure belongs to -/

/-- Which request something belongs to. For a request inside a batch this is that request with the
Content-ID it has there. -/
structure Locus where
  method : Method
  uri : String
  protocol : Protocol
  contentId : Option Nat
  deriving DecidableEq, Repr

/-- Such as `POST /svc/People (Content-ID 3)`. -/
def Locus.text (l : Locus) : String :=
  l.method.name ++ " " ++ l.uri ++
    match l.contentId with
    | some id => " (Content-ID " ++ decimal id ++ ")"
    | none => ""

/-! ## Causes -/

inductive Exchange where
  | call (method : Method) (uri : String)
  | tokenCall (uri : String)
  | buffering
  | reading
  | draining
  | readingParts
  | other (text : String)
  deriving DecidableEq, Repr

def Exchange.message : Exchange → String
  | call method uri => method.name ++ " " ++ uri ++ " failed"
  | tokenCall uri => "CSRF token request to " ++ uri ++ " failed"
  | buffering => "failed to buffer the HTTP response body"
  | reading => "failed to read the HTTP response body"
  | draining => "failed to drain the HTTP response body"
  | readingParts => "failed to read the multipart body"
  | other text => text

inductive Obstacle where
  | repeatedParameter (name : String)
  | unescapedQuery (query : String)
  | tokensDisabled
  | notPaged
  | noTransport
  | lastPage
  | wrongKind (kind expected : String)
  | foreignService (batchRoot uri : String)
  | foreignProtocol (batch request : Protocol)
  | other (text : String)
  deriving DecidableEq, Repr

def Obstacle.message : Obstacle → String
  | repeatedParameter name =>
    "parameter '" ++ name ++ "' is already present and cannot be added twice"
  | unescapedQuery query =>
    "the query part of the OData request is not correctly encoded: \"" ++ query ++ "\""
  | tokensDisabled => "CSRF token retrieval is disabled"
  | notPaged => "Pagination is only applicable for read requests."
  | noTransport =>
    "Unable to access response of next page: " ++
      "no transport was provided when creating this response."
  | lastPage => "Current page of result-set does not reference a next page."
  | wrongKind kind expected =>
    "a " ++ kind ++ " request cannot be added here, expected one of [\"" ++ expected ++ "\"]"
  | foreignService batchRoot uri =>
    "Batch request contains requests to different service paths (batch request: " ++ batchRoot ++
      ", single request: " ++ uri ++ ")"
  | foreignProtocol batch request =>
    "Batch request contains requests with different protocol versions (" ++ batch.name ++
      " and " ++ request.name ++ ")"
  | other text => text

inductive Defect where
  | noContent
  | alreadyConsumed
  | noPayload (p : Protocol)
  | wrongShape (p : Protocol)
  | invalidJson (p : Protocol)
  | unfitEntity
  | nullPrimitive
  | unfitPrimitive
  | unfitList (p : Protocol)
  | noCount (p : Protocol)
  | noBoundary
  | badStatusLine (line : String)
  | badStatusCode (line : String)
  | noToken (uri : String)
  | noSubResponse (contentId : Nat)
  | other (text : String) (fromJson : Bool)
  deriving DecidableEq, Repr

def Defect.message : Defect → String
  | noContent => "HTTP response does not contain a content."
  | alreadyConsumed => "the HTTP response body has already been consumed and was not buffered"
  | noPayload p => p.name ++ " response did not contain any payload."
  | wrongShape p => "Unable to read " ++ p.name ++ " response."
  | invalidJson p => "Failed to parse " ++ p.name ++ " response."
  | unfitEntity => "Failed to deserialize a complex object."
  | nullPrimitive => "The response is null."
  | unfitPrimitive => "Failed to deserialize a primitive object."
  | unfitList p => "Failed to parse " ++ p.name ++ " result to a list."
  | noCount p => "Inline count not found in " ++ p.name ++ " response payload."
  | noBoundary => "No delimiter found in HTTP header."
  | badStatusLine line =>
    "unable to parse the status line of a batch sub-response: \"" ++ line ++ "\""
  | badStatusCode line => "invalid status code in \"" ++ line ++ "\""
  | noToken uri => "CSRF token response from " ++ uri ++ " does not carry an x-csrf-token header"
  | noSubResponse id =>
    "batch response does not contain a sub-response for Content-ID " ++ decimal id
  | other text _ => text

def Defect.fromJson : Defect → Bool
  | invalidJson _ | unfitEntity | unfitPrimitive | unfitList _ => true
  | other _ fromJson => fromJson
  | _ => false

inductive Cause where
  | connection (during : Exchange) (fault : TransportFault)
  | construction (obstacle : Obstacle)
  | unhealthy (status : Nat) (body : Option String)
  | service (status : Nat) (error : ServiceError) (body : Option String)
  | unreadable (defect : Defect)
  deriving Repr

namespace Cause

def kind : Cause → String
  | connection _ _ => "Connection"
  | construction _ => "RequestConstruction"
  | unhealthy _ _ => "UnhealthyResponse"
  | service _ _ _ => "ServiceError"
  | unreadable _ => "Deserialization"

def message : Cause → String
  | connection during _ => "connection failure: " ++ during.message
  | construction obstacle => "request construction failed: " ++ obstacle.message
  | unhealthy status _ => "unhealthy response: HTTP " ++ decimal status
  | service status error _ =>
    "OData service error (HTTP " ++ decimal status ++ "): " ++ error.text
  | unreadable defect => "deserialization failed: " ++ defect.message

def status? : Cause → Option Nat
  | unhealthy status _ | service status _ _ => some status
  | _ => none

def body? : Cause → Option String
  | unhealthy _ body | service _ _ body => body
  | _ => none

def serviceError? : Cause → Option ServiceError
  | service _ error _ => some error
  | _ => none

end Cause

/-! ## Failures -/

structure Failure where
  cause : Cause
  locus : Option Locus
  /-- Failures on the way that did not end the operation by themselves. -/
  secondary : List Failure
  deriving Repr

namespace Failure

def of (cause : Cause) : Failure := ⟨cause, none, []⟩

def connection (during : Exchange) (fault : TransportFault) : Failure :=
  of (.connection during fault)

def construction (obstacle : Obstacle) : Failure := of (.construction obstacle)

def unreadable (defect : Defect) : Failure := of (.unreadable defect)

def atRequest (f : Failure) (l : Locus) : Failure := { f with locus := some l }

/-- The failure as one of this request, unless it belongs to a request already. -/
def orAtRequest (f : Failure) (l : Locus) : Failure := { f with locus := f.locus.or (some l) }

def after (f earlier : Failure) : Failure := { f with secondary := f.secondary ++ [earlier] }

/-- The failure in words: the cause, the request, and what else went wrong. -/
def message : Failure → String
  | ⟨cause, locus, secondary⟩ =>
    cause.message ++
      (match locus with
        | some l => " [" ++ l.text ++ "]"
        | none => "") ++
      match secondary with
      | [] => ""
      | [s] => " (secondary cause: " ++ s.message ++ ")"
      | s :: t :: r => " (" ++ decimal (s :: t :: r).length ++ " secondary causes)"

end Failure

end OData
