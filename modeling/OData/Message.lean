import OData.Headers
import OData.Source

/-!
# HTTP messages

What the client hands to a transport and what it gets back: a `Call` with a method, a relative URI,
headers and possibly a body, and an `Answer` with a status, headers and possibly a body that is
still to be read. A transport may also fail, for one of four reasons.
-/

set_option autoImplicit false

namespace OData

inductive Method where
  | get
  | head
  | post
  | put
  | patch
  | delete
  deriving DecidableEq, Repr

namespace Method

def name : Method → String
  | get => "GET"
  | head => "HEAD"
  | post => "POST"
  | put => "PUT"
  | patch => "PATCH"
  | delete => "DELETE"

def carriesBody : Method → Bool
  | post | put | patch => true
  | get | head | delete => false

end Method

/-- A complete HTTP request. Its URI is relative to the destination of the transport. -/
structure Call where
  method : Method
  uri : String
  headers : Headers
  body : Option String
  deriving DecidableEq, Repr

def Call.line (c : Call) : String := c.method.name ++ " " ++ c.uri

/-- An HTTP response. Without a body there is no entity, which is not the same as an empty one. -/
structure Answer where
  status : Nat
  reason : String
  headers : Headers
  body : Option Source
  deriving DecidableEq, Repr

namespace Answer

/-- The phrase of a status where an answer brings none of its own. -/
def phrase : Nat → String
  | 200 => "OK"
  | 201 => "Created"
  | 202 => "Accepted"
  | 204 => "No Content"
  | 400 => "Bad Request"
  | 403 => "Forbidden"
  | 404 => "Not Found"
  | 412 => "Precondition Failed"
  | 500 => "Internal Server Error"
  | _ => ""

def json (document : Source) : Answer :=
  ⟨200, phrase 200, .ofPairs [("Content-Type", "application/json")], some document⟩

end Answer

inductive TransportFault where
  | io (text : String)
  | invalidRequest (text : String)
  | protocol (text : String)
  | other (text : String)
  deriving DecidableEq, Repr

def TransportFault.message : TransportFault → String
  | io text => "I/O error: " ++ text
  | invalidRequest text => "invalid request: " ++ text
  | protocol text => "protocol violation: " ++ text
  | other text => "transport failure: " ++ text

/-- The fault of reading from a body that breaks off. -/
def TransportFault.broken : TransportFault := .io Source.breakText

end OData
