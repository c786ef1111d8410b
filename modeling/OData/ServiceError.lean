import OData.Json.Reader

/-!
# Service errors

The structured error that a service sends along with a failing status: a code, a message, the
target it concerns, details of the same form and further data of the service's own. The two
versions of the protocol write it differently: the older one wraps the message in an object with
its language and keeps details among the further data, under `errordetails`.
-/

set_option autoImplicit false

namespace OData

structure ServiceError where
  code : String
  message : String
  target : Option String
  details : List ServiceError
  /-- The service's own data, in key order. -/
  inner : List (String × Json)
  deriving Repr

namespace ServiceError

def of (code message : String) (target : Option String) : ServiceError :=
  ⟨code, message, target, [], []⟩

def text (e : ServiceError) : String :=
  match e.target with
  | some target => e.code ++ " (" ++ target ++ "): " ++ e.message
  | none => e.code ++ ": " ++ e.message

/-! ## The form of error documents -/

inductive Part where
  | document
  | error
  deriving DecidableEq, Repr

/-- Which fields each part has. A list may leave out the last two of an error. -/
def schema : Json.Schema Part
  | .document => [⟨"error", .record .error, true, true⟩]
  | .error =>
    [⟨"code", .optional .text, false, true⟩,
     ⟨"message", .any, false, true⟩,
     ⟨"target", .optional .text, false, true⟩,
     ⟨"details", .list (.record .error), false, false⟩,
     ⟨"innererror", .optional .object, false, false⟩]

/-- A message is a text, or an object whose only member `value` is one; `null` stands for no
message. Anything else is not allowed. -/
def message? : Json → Option (Option String)
  | .null => some none
  | .text s => some (some s)
  | .object members =>
    match members.filter (·.1 == "value") with
    | [(_, .text s)] => some (some s)
    | _ => none
  | _ => none

mutual

def ofRecord? : Json → Option ServiceError
  | .object members => ofMembers? members (of "" "" none)
  | _ => none

/-- `e` with the fields that the members set. -/
def ofMembers? : List (String × Json) → ServiceError → Option ServiceError
  | [], e => some e
  | (name, v) :: r, e =>
    match name, v with
    | "code", .text s => ofMembers? r { e with code := s }
    | "message", v =>
      (message? v).bind fun s => ofMembers? r { e with message := s.getD e.message }
    | "target", .text s => ofMembers? r { e with target := some s }
    | "details", .list items =>
      (ofRecords? items).bind fun ds => ofMembers? r { e with details := ds }
    | "innererror", .object members =>
      match (Json.object members).normal with
      | .object members => ofMembers? r { e with inner := members }
      | _ => ofMembers? r e
    | _, _ => ofMembers? r e

def ofRecords? : List Json → Option (List ServiceError)
  | [] => some []
  | v :: r => (ofRecord? v).bind fun e => (ofRecords? r).map (e :: ·)

end

/-! ## Reading -/

def has (name : String) (v : Json) : Bool := ((v.member? name).map fun m => !m.isNull).getD false

/-- The details that the older version keeps under `errordetails`, as far as they have the form of
errors. -/
def liftedDetails (inner : List (String × Json)) : List ServiceError :=
  match (inner.find? (·.1 == "errordetails")).map Prod.snd with
  | some (.list items) =>
    items.filterMap fun item => (Json.fit? schema (.record .error) item).bind ofRecord?
  | _ => []

/-- The error with its details where the newer version has them. -/
def lift (e : ServiceError) : ServiceError :=
  if e.details.isEmpty then
    { e with
      details := liftedDetails e.inner
      inner := e.inner.filter (·.1 != "errordetails") }
  else e

/-- The error of a document; nothing if it is not an error document with a code or a message. -/
def parse? (p : Protocol) (body : List UInt8) : Option ServiceError := do
  let document ← Json.parseRecord? schema .document body
  let payload ← document.member? "error"
  if has "code" payload || has "message" payload then
    let e ← ofRecord? payload
    return match p with
      | .v2 => e.lift
      | .v4 => e
  else none

end ServiceError

end OData
