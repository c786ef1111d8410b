import OData.Json.Machine

/-!
# Reading documents

The machine put to use: a whole document as a tree, a record of a known kind, or the elements of a
collection one by one. Only the last can leave something behind when it fails, namely the elements
that were complete before the fault.
-/

set_option autoImplicit false

namespace OData.Json

variable {ρ : Type}

structure Reading where
  outcome : Option Item
  /-- The elements handed out, in order. -/
  handed : List Json
  /-- The bytes not looked at. -/
  unread : List UInt8
  deriving Repr

/-- Reads a document from bytes that either end or break off. What breaks off is never complete,
as something might have followed. -/
def readFrom (schema : Schema ρ) (want : Want ρ) (bytes : List UInt8) (breaksOff : Bool) :
    Reading :=
  let (m, unread) := (Machine.start want).run schema bytes
  let m := if breaksOff then m else m.ended
  { outcome := if breaksOff then none else m.complete?
    handed := m.handed.reverse.map normal
    unread := unread }

/-- No records at all. -/
def noRecords : Schema Empty := fun kind => nomatch kind

def parseRaw? (bytes : List UInt8) : Option Json :=
  match (readFrom noRecords (.build .any) bytes false).outcome with
  | some (.value v) => some v
  | _ => none

def parse? (bytes : List UInt8) : Option Json := (parseRaw? bytes).map normal

def parseRecord? (schema : Schema ρ) (kind : ρ) (bytes : List UInt8) : Option Json :=
  match (readFrom schema (.build (.record kind)) bytes false).outcome with
  | some (.value v) => some v
  | _ => none

end OData.Json
