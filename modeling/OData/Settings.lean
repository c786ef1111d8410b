import OData.Credentials
import OData.Message
import OData.Text.Decimal
import OData.Text.KeyOrder
import OData.Text.Blank
import OData.MediaType
import OData.Warning

/-!
# Settings of a transport

Where a transport sends its calls and how: the destination, time limits, the name of the client and
headers sent with every call. Settings come from defaults, from the environment and from the
program. `Settings.prepare` checks a call against the rules of HTTP before it could be sent: names
of headers are tokens, and their values have no control characters. Credentials in the destination
become a header of the call.
-/

set_option autoImplicit false

namespace OData

open OData.Text

/-- How a transport is set up. Times are in seconds. -/
structure Settings where
  baseUrl : String
  timeout : Option Nat
  connectTimeout : Option Nat
  userAgent : Option String
  defaultHeaders : List (String × String)
  deriving DecidableEq, Repr

namespace Settings

def initial : Settings := ⟨"http://localhost", none, none, none, []⟩

def of (baseUrl : String) : Settings := { initial with baseUrl := baseUrl }

/-- The settings with a header for every call; a later value of a name replaces an earlier one. -/
def withHeader (s : Settings) (name value : String) : Settings :=
  { s with defaultHeaders := insertByKey name value s.defaultHeaders }

def withHeaders (s : Settings) (pairs : List (String × String)) : Settings :=
  pairs.foldl (fun s p => s.withHeader p.1 p.2) s

/-! ## The environment -/

structure Environment where
  baseUrl : Option String
  timeout : Option String
  connectTimeout : Option String
  userAgent : Option String
  deriving DecidableEq, Repr

/-- The value of a variable without blanks around it; an empty one counts as missing. -/
def cleaned (v : Option String) : Option String := (v.map trimmed).filter (· != "")

/-- A number of seconds; anything else that is not empty gives cause to warn. -/
def seconds (v : Option String) : Option Nat × List Warning :=
  match cleaned v with
  | none => (none, [])
  | some s =>
    match readUnsigned (UInt64.size - 1) s.toList with
    | some n => (some n, [])
    | none => (none, [.unreadableSeconds])

/-- The settings of an environment, and what it gives cause to warn of. -/
def ofEnvironment (env : Environment) : Settings × List Warning :=
  let (timeout, w₁) := seconds env.timeout
  let (connectTimeout, w₂) := seconds env.connectTimeout
  ({ initial with
      baseUrl := (cleaned env.baseUrl).getD initial.baseUrl
      timeout := timeout
      connectTimeout := connectTimeout
      userAgent := cleaned env.userAgent },
    w₁ ++ w₂)

/-! ## Calls -/

/-- The destination of a call: one slash stands between the base and the URI. -/
def resolve (s : Settings) (uri : String) : String :=
  let base := String.ofList (dropEndWhile (· == '/') s.baseUrl.toList)
  if uri.toList.head? = some '/' then base ++ uri else base ++ "/" ++ uri

/-- Names are tokens, and not longer than 65535 characters. -/
def isName (s : String) : Bool :=
  s.toList.all MediaType.isTokenChar && !s.toList.isEmpty && s.toList.length < 65536

/-- Values have no control characters of ASCII other than tabs. -/
def isValue (s : String) : Bool := s.toList.all fun c => MediaType.isQuotedChar c || c == '\t'

inductive Unusable where
  | headerName (name : String)
  | headerValue (name : String)
  | userAgent
  deriving DecidableEq, Repr

def Unusable.message : Unusable → String
  | headerName name => "invalid header key: " ++ name
  | headerValue name => "invalid header value for " ++ name
  | userAgent => "failed to build HTTP client: builder error"

/-- The first header whose name or value is against the rules. -/
def faultyHeader? : List (String × String) → Option Unusable
  | [] => none
  | (name, value) :: r =>
    if !isName name then some (.headerName name)
    else if !isValue value then some (.headerValue name)
    else faultyHeader? r

def check (s : Settings) : Except Unusable Unit :=
  match faultyHeader? s.defaultHeaders with
  | some u => .error u
  | none =>
    if ((s.userAgent.map isValue).getD true) then .ok () else .error .userAgent

/-- A call as it would be sent: names of headers in small letters, in order. -/
structure Prepared where
  method : Method
  /-- The destination as the settings give it, with any credentials still in it. -/
  url : String
  headers : List (String × String)
  body : Option String
  deriving DecidableEq, Repr

/-- The header that carries the credentials in a URL, if there are any. -/
def authorization (url : String) : List (String × String) :=
  ((Credentials.ofUrl? url).map fun c => ("authorization", c.basic)).toList

/-- Checks a call and puts it into its final form. Its own headers stand beside the one for the
credentials and do not replace it. -/
def prepare (s : Settings) (c : Call) : Except TransportFault Prepared :=
  match faultyHeader? c.headers.pairs with
  | some u => .error (.invalidRequest u.message)
  | none =>
    .ok
      { method := c.method
        url := s.resolve c.uri
        headers := authorization (s.resolve c.uri)
          ++ c.headers.pairs.map fun (name, value) => (lower name, value)
        body := c.body }

end Settings

end OData
