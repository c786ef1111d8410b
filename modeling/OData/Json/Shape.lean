import OData.Json.Basic

/-!
# Shapes

What a reader expects a JSON value to be. A shape accepts or refuses a value and says what is kept
of it: a record keeps the fields it knows and passes over the rest. Records may also be written as
lists of their fields in order. The names of record kinds are a parameter, so that records can refer
to each other and to themselves; a `Schema` says which fields each kind has.
-/

set_option autoImplicit false

namespace OData.Json

open OData.Ieee

inductive Shape (ρ : Type) where
  | any
  | integer (low high : Int)
  | number
  | boolean
  | text
  | object
  | optional (s : Shape ρ)
  | list (s : Shape ρ)
  | record (kind : ρ)
  deriving DecidableEq, Repr

structure Field (ρ : Type) where
  name : String
  shape : Shape ρ
  /-- Whether an object without the field is refused. -/
  inObject : Bool
  /-- Whether a list that ends before the field is refused. -/
  inList : Bool
  deriving DecidableEq, Repr

abbrev Schema (ρ : Type) := ρ → List (Field ρ)

namespace Shape

variable {ρ : Type}

/-- What a shape keeps of a value that is neither a list nor an object. -/
def scalar? : Shape ρ → Json → Option Json
  | any, v => some v
  | integer low high, .integer i => if low ≤ i ∧ i ≤ high then some (.integer i) else none
  | number, .integer i => some (.number (Double.ofInt i))
  | number, .number d => some (.number d)
  | boolean, .boolean b => some (.boolean b)
  | text, .text s => some (.text s)
  | optional _, .null => some .null
  | optional s, v => s.scalar? v
  | _, _ => none

def int64 : Shape ρ := integer (-0x8000000000000000) 0x7FFFFFFFFFFFFFFF

def uint8 : Shape ρ := integer 0 255

end Shape

def fieldOf? {ρ : Type} (fields : List (Field ρ)) (name : String) : Option (Field ρ) :=
  fields.find? (·.name == name)

/-- Whether an object with these members has every field it needs. -/
def hasFields {ρ : Type} (fields : List (Field ρ)) (members : List (String × Json)) : Bool :=
  fields.all fun f => !f.inObject || members.any (·.1 == f.name)

def Shape.core {ρ : Type} : Shape ρ → Shape ρ
  | .optional s => s.core
  | s => s

mutual

/-- What a shape keeps of a value whose objects have no repeated names, or nothing if it refuses
the value. -/
def fit? {ρ : Type} (schema : Schema ρ) (s : Shape ρ) : Json → Option Json
  | .list items =>
    match s.core with
    | .any => some (.list items)
    | .list element => (fitItems? schema element items).map .list
    | .record kind => (fitRow? schema (schema kind) items).map .object
    | _ => none
  | .object members =>
    match s.core with
    | .any | .object => some (.object members)
    | .record kind =>
      (fitMembers? schema (schema kind) members).bind fun kept =>
        if hasFields (schema kind) kept then some (.object kept) else none
    | _ => none
  | .null => s.scalar? .null
  | .boolean b => s.scalar? (.boolean b)
  | .integer i => s.scalar? (.integer i)
  | .number d => s.scalar? (.number d)
  | .text t => s.scalar? (.text t)

def fitItems? {ρ : Type} (schema : Schema ρ) (element : Shape ρ) : List Json → Option (List Json)
  | [] => some []
  | v :: r => (fit? schema element v).bind fun v => (fitItems? schema element r).map (v :: ·)

def fitRow? {ρ : Type} (schema : Schema ρ) :
    List (Field ρ) → List Json → Option (List (String × Json))
  | fields, [] => if fields.all (!·.inList) then some [] else none
  | [], _ :: _ => none
  | f :: fields, v :: r =>
    (fit? schema f.shape v).bind fun v => (fitRow? schema fields r).map ((f.name, v) :: ·)

def fitMembers? {ρ : Type} (schema : Schema ρ) (fields : List (Field ρ)) :
    List (String × Json) → Option (List (String × Json))
  | [] => some []
  | (k, v) :: r =>
    match fieldOf? fields k with
    | none => fitMembers? schema fields r
    | some f =>
      (fit? schema f.shape v).bind fun v => (fitMembers? schema fields r).map ((k, v) :: ·)

end

end OData.Json
