import OData.Response

/-!
# Reading the content of responses

The JSON content of a response in the forms that the protocol gives it: a single entity, a primitive
value, a collection as a whole or element by element, the total count, and the links to the next
page and to later changes. Where each of these stands depends on the version of the protocol.
-/

set_option autoImplicit false

namespace OData

open OData.Text

namespace Access

variable {ρ : Type}

def invalidJson {α : Type} : Access α := do
  let r ← get
  fail (.unreadable (.invalidJson r.protocol))

def document : Access Json := do
  entity
  let s ← source
  let reading := Json.readFrom Json.noRecords (.build .any) s.rest s.breaksOff
  pull s (s.rest.length - reading.unread.length)
  match reading.outcome with
  | some (.value v) => return v.normal
  | _ => invalidJson

/-! ## Entities and primitive values -/

def object : Access Json := do
  let root ← document
  match root.at? (← get).protocol.entityPlace with
  | some v => if v.isObject then return v else wrongShape
  | none => wrongShape

/-- The single entity in a given shape. -/
def entityAs (schema : Json.Schema ρ) (shape : Json.Shape ρ) : Access Json := do
  match Json.fit? schema shape (← object) with
  | some v => return v
  | none => fail (.unreadable .unfitEntity)

/-- The primitive value in a document. The older version of the protocol wraps it in an object with
one member, named for the function; in the newer one it may also be the whole document. -/
def primitiveIn? (p : Protocol) (root : Json) : Option Json :=
  let found :=
    match p, root.at? p.primitivePlace with
    | .v2, some (.object [(_, v)]) => some v
    | _, some v => some v
    | .v4, none => if root.isObject then none else some root
    | .v2, none => none
  match found with
  | some (.object _) | some (.list _) | none => none
  | some v => some v

/-- A primitive value in a given shape. Plain text is read as JSON if it is, and is a string
otherwise. -/
def primitiveAs (schema : Json.Schema ρ) (shape : Json.Shape ρ) : Access Json := do
  let r ← get
  let v ←
    if r.isPlainText then
      entity
      let s ← text
      pure ((Json.parse? (Utf8.ofString s)).getD (.text s))
    else
      let root ← document
      match primitiveIn? r.protocol root with
      | some v => pure v
      | none => wrongShape
  if v.isNull then fail (.unreadable .nullPrimitive)
  else
    match Json.fit? schema shape v with
    | some v => return v
    | none => fail (.unreadable .unfitPrimitive)

/-! ## Collections -/

/-- The elements in a document. The older version of the protocol may leave out the object around
them. -/
def collectionIn? (p : Protocol) (root : Json) : Option (List Json) :=
  let found :=
    match root.at? p.collectionPlace, p with
    | some v, _ => some v
    | none, .v2 => root.at? p.entityPlace
    | none, .v4 => none
  match found with
  | some (.list items) => some items
  | _ => none

def collection : Access (List Json) := do
  let root ← document
  match collectionIn? (← get).protocol root with
  | some items => return items
  | none => wrongShape

def listAs (schema : Json.Schema ρ) (shape : Json.Shape ρ) : Access (List Json) := do
  match (← collection).mapM (Json.fit? schema shape) with
  | some items => return items
  | none => fail (.unreadable (.unfitList (← get).protocol))

end Access

namespace Visit

variable {ρ : Type}

/-- Reads the collection element by element. Gives the elements that were handed out, each in the
given shape, and then their number, or the failure that ended the reading. -/
def elements (schema : Json.Schema ρ) (shape : Json.Shape ρ) :
    Visit (List Json × Except Failure Nat) := do
  match ← (do Access.entity; Access.source : Access Source).run with
  | .error f => return ([], .error f)
  | .ok s =>
    let p := (← get).protocol
    let reading := Json.readFrom schema (.descend p.collectionPlace shape) s.rest s.breaksOff
    modifyThe Journal (·.pull s (s.rest.length - reading.unread.length))
    let count ←
      (match reading.outcome with
        | some (.count (some n)) => return n
        | some _ => Access.wrongShape
        | none => Access.invalidJson : Access Nat).run
    return (reading.handed, count)

end Visit

namespace Access

/-! ## Counts and links -/

/-- A count written as a number or as text. -/
def countOf? : Json → Option Nat
  | .integer i => if 0 ≤ i then some i.toNat else none
  | .text s => readUnsigned (UInt64.size - 1) s.toList
  | _ => none

def inlineCount : Access Nat := do
  let root ← document
  let p := (← get).protocol
  match (root.at? p.countPlace).bind countOf? with
  | some n => return n
  | none => fail (.unreadable (.noCount p))

/-- The link at a place, if there is a text there that is not empty. -/
def linkIn? (place : Place) (root : Json) : Option String :=
  match root.at? place with
  | some (.text s) => if s = "" then none else some s
  | _ => none

def nextLink : Access (Option String) := do
  let root ← document
  return linkIn? (← get).protocol.nextLinkPlace root

/-- The link for later changes, if there is one. Where the protocol has none, the body is left
alone. -/
def deltaLink : Access (Option String) := do
  match (← get).protocol.deltaLinkPlace? with
  | none => return none
  | some place => return linkIn? place (← document)

end Access

end OData
