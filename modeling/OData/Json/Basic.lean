import OData.Ieee.Format
import OData.Protocol
import OData.Text.KeyOrder

/-!
# JSON documents

The tree of a JSON document. A number is kept exactly if it is an integer of 64 bits, signed or
not, and as a double otherwise. An object keeps its members as they were written, repeated names
included; `Json.normal` puts them in key order and lets the last of equal names win, which is how
a document is understood.
-/

set_option autoImplicit false

namespace OData

open OData.Text OData.Ieee

inductive Json where
  | null
  | boolean (b : Bool)
  | integer (i : Int)
  | number (d : Double)
  | text (s : String)
  | list (items : List Json)
  | object (members : List (String × Json))
  deriving Repr, Inhabited

namespace Json

/-! ## Looking inside -/

/-- The member of a name in an object; of several the last. -/
def member? (name : String) : Json → Option Json
  | object members => (members.reverse.find? (·.1 == name)).map Prod.snd
  | _ => none

/-- The value at a place: at each level the first of the names that the object has. -/
def at? : Place → Json → Option Json
  | [], v => some v
  | names :: rest, v => (names.findSome? fun name => v.member? name).bind (at? rest)

def isObject : Json → Bool
  | object _ => true
  | _ => false

def isNull : Json → Bool
  | null => true
  | _ => false

/-! ## Understanding -/

mutual

/-- The document with the members of every object in key order, each name once. -/
def normal : Json → Json
  | list items => list (normalItems items)
  | object members => object (keyOrdered (normalMembers members))
  | null => null
  | boolean b => boolean b
  | integer i => integer i
  | number d => number d
  | text s => text s

def normalItems : List Json → List Json
  | [] => []
  | v :: r => v.normal :: normalItems r

def normalMembers : List (String × Json) → List (String × Json)
  | [] => []
  | (k, v) :: r => (k, v.normal) :: normalMembers r

end

end Json

end OData
