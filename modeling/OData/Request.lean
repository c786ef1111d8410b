import OData.Failure
import OData.Journal
import OData.Path
import OData.Json.Printer

/-!
# Requests

The operations of the protocol as values: what each one addresses and what it sends along. A
`Request` puts an operation into a `Context`, the settings that all requests share, batches
included. From the two follow the method, the URI, the body and the headers; nothing is sent here.
-/

set_option autoImplicit false

namespace OData

open OData.Text

/-! ## Settings -/

inductive TokenSource where
  | fetch
  | disabled
  /-- Made by the caller from the service path and the headers of the request. -/
  | supplied (retrieve : String → Headers → Except Failure String)

def TokenSource.isEnabled : TokenSource → Bool
  | disabled => false
  | fetch | supplied _ => true

structure Context where
  servicePath : String
  protocol : Protocol
  headers : Headers
  /-- Further query options with their escaped values, in order of their names. -/
  options : List (String × String)
  tokens : TokenSource
  listeners : List Listener
  buffering : Bool

namespace Context

def jsonType : String := "application/json"

/-- The settings that a request starts with: it accepts JSON, fetches tokens, has no listeners and
buffers the response. -/
def initial (servicePath : String) (p : Protocol) : Context :=
  { servicePath := servicePath
    protocol := p
    headers := Headers.empty.insert "Accept" jsonType
    options := []
    tokens := .fetch
    listeners := []
    buffering := true }

inductive Change where
  | addHeader (name value : String)
  | setHeader (name value : String)
  | addHeaderIfAbsent (name value : String)
  /-- A later value of an option replaces an earlier one. -/
  | addOption (name escapedValue : String)
  deriving DecidableEq, Repr

def change (c : Context) : Change → Context
  | .addHeader name value => { c with headers := c.headers.append name value }
  | .setHeader name value => { c with headers := c.headers.insert name value }
  | .addHeaderIfAbsent name value => { c with headers := c.headers.insertIfAbsent name value }
  | .addOption name value => { c with options := insertByKey name value c.options }

/-- The query options as written. -/
def optionsQuery (c : Context) : List Char :=
  joinWith ['&'] (c.options.map fun (name, value) => name.toList ++ '=' :: value.toList)

/-- The service path in its tidy form, for display. -/
def displayRoot (c : Context) : List Char := Link.tidy c.servicePath.toList

/-- The link to a resource with a query; fails if the query was not escaped. -/
def link (c : Context) (e : Escaping) (path query : List Char) : Except Failure String :=
  match Link.compose? e c.servicePath.toList path query with
  | some uri => .ok (String.ofList uri)
  | none => .error (.construction (.unescapedQuery (String.ofList query)))

end Context

/-! ## Operations -/

inductive UpdateMode where
  | modify
  | replace
  deriving DecidableEq, Repr

inductive Operation where
  | read (query : String)
  | readByKey (query : String)
  | create (entity : String)
  | update (entity : String) (mode : UpdateMode) (version : Option String)
  | delete (version : Option String)
  | action (arguments : String)
  | function (parameters : Parameters)
  | count (query : String)
  deriving DecidableEq, Repr

namespace Operation

def name : Operation → String
  | read _ => "read"
  | readByKey _ => "read-by-key"
  | create _ => "create"
  | update _ _ _ => "update"
  | delete _ => "delete"
  | action _ => "action"
  | function _ => "function"
  | count _ => "count"

/-- Whether the state of the service may change; such requests need a token. -/
def modifies : Operation → Bool
  | create _ | update _ _ _ | delete _ | action _ => true
  | read _ | readByKey _ | function _ | count _ => false

def isRead : Operation → Bool
  | read _ => true
  | _ => false

def method : Operation → Method
  | read _ | readByKey _ | function _ | count _ => .get
  | create _ | action _ => .post
  | update _ .modify _ => .patch
  | update _ .replace _ => .put
  | delete _ => .delete

/-- The version of the entity that an update or a deletion is meant for. -/
def version? : Operation → Option String
  | update _ _ version | delete version => version
  | _ => none

/-- The operation bound to a version of its entity; only updates and deletions can be. -/
def withVersion (o : Operation) (version : String) : Operation :=
  match o with
  | update entity mode _ => update entity mode (some version)
  | delete _ => delete (some version)
  | o => o

def body? : Operation → Option String
  | create entity | update entity _ _ => some entity
  | action arguments => some arguments
  | _ => none

/-- An action; without arguments it sends an empty object. -/
def actionOf (arguments : Option Json) : Operation :=
  action ((arguments.map fun v => v.normal.render).getD "{}")

end Operation

/-! ## Requests -/

structure Request where
  context : Context
  path : Path
  operation : Operation

namespace Request

def of (servicePath : String) (path : Path) (p : Protocol) (operation : Operation) : Request :=
  ⟨.initial servicePath p, path, operation⟩

def readByKey (servicePath : String) (set : Path) (key : Parameters) (query : String)
    (p : Protocol) : Request :=
  of servicePath (set.withParameters key) p (.readByKey query)

def protocol (r : Request) : Protocol := r.context.protocol

def method (r : Request) : Method := r.operation.method

def change (r : Request) (c : Context.Change) : Request :=
  { r with context := r.context.change c }

/-- The path that is written: counting adds a segment, and the newer version of the protocol writes
the parameters of a function after the last segment. -/
def target (r : Request) : Path :=
  match r.operation, r.protocol with
  | .count _, _ => r.path.segment "$count"
  | .function ps, .v4 => r.path.withParameters ps
  | _, _ => r.path

/-- The query of the operation itself; the older version of the protocol writes the parameters of a
function there. -/
def ownQuery (r : Request) (e : Escaping) : List Char :=
  match r.operation, r.protocol with
  | .read query, _ | .readByKey query, _ | .count query, _ => query.toList
  | .function ps, .v2 => ps.chars e .query
  | _, _ => []

def query (r : Request) (e : Escaping) : List Char :=
  joinWith ['&'] ([r.ownQuery e, r.context.optionsQuery].filter (!·.isEmpty))

def uri (r : Request) (e : Escaping) : Except Failure String :=
  r.context.link e (r.target.chars e) (r.query e)

/-- The URI shown to people, which exists even where the request cannot be made. -/
def displayUri (r : Request) : String :=
  match r.uri .regular with
  | .ok uri => uri
  | .error _ =>
    let query := r.query .none
    String.ofList (r.context.displayRoot ++ r.target.chars .none ++
      if query.isEmpty then [] else '?' :: query)

def locus (r : Request) : Locus := ⟨r.method, r.displayUri, r.protocol, none⟩

def warnings (r : Request) : List Warning :=
  r.target.warnings ++
    match r.operation, r.protocol with
    | .function ps, .v2 => ps.warnings
    | _, _ => []

/-- The headers as sent: those stored, a content type if there is a body, and the version of the
entity if one is given. Headers that are present are never replaced. -/
def sentHeaders (r : Request) : Headers :=
  let h := r.context.headers
  let h := if r.operation.body?.isSome then h.insertIfAbsent "Content-Type" Context.jsonType else h
  match r.operation.version? with
  | some version => h.insertIfAbsent "If-Match" version
  | none => h

end Request

end OData
