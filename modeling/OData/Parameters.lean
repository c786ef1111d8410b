import OData.Literal
import OData.Link
import OData.Failure
import OData.Warning

/-!
# Parameter sets

Named literals in the order in which they were added, as keys of entities and as arguments of
functions. A name occurs once: `Parameters.add` refuses a second use and leaves the set as it was.
Delimiters are written as they stand and everything between them is escaped, so what is written can
be taken apart again.
-/

set_option autoImplicit false

namespace OData

open OData.Text

namespace Parameters

inductive Style where
  /-- The key of an entity; a key with one member is written without its name. -/
  | key
  /-- The arguments of a function, which are always named. -/
  | arguments
  deriving DecidableEq, Repr

inductive Position where
  /-- After a path segment, in parentheses and with commas between the members. -/
  | path
  | query
  deriving DecidableEq, Repr

end Parameters

structure Parameters where
  protocol : Protocol
  style : Parameters.Style
  entries : List (String × Literal)
  deriving DecidableEq, Repr

namespace Parameters

def empty (protocol : Protocol) (style : Style) : Parameters := ⟨protocol, style, []⟩

def size (ps : Parameters) : Nat := ps.entries.length

def isEmpty (ps : Parameters) : Bool := ps.entries.isEmpty

def get? (ps : Parameters) (name : String) : Option Literal :=
  (ps.entries.find? (·.1 == name)).map Prod.snd

def contains (ps : Parameters) (name : String) : Bool := ps.entries.any (·.1 == name)

/-- The set with one more member at its end, unless the name is taken. -/
def add? (ps : Parameters) (name : String) (value : Literal) : Option Parameters :=
  if ps.contains name then none else some { ps with entries := ps.entries ++ [(name, value)] }

/-- Adds a member. If the name is taken, this fails and leaves the set as it was. -/
def add (ps : Parameters) (name : String) (value : Literal) : Except Failure Unit × Parameters :=
  match ps.add? name value with
  | some ps => (.ok (), ps)
  | none => (.error (.construction (.repeatedParameter name)), ps)

def escape (e : Escaping) : Position → List Char → List Char
  | .path => e.segment
  | .query => e.query

/-- The members, escaped, each with its name unless names are left out. -/
def members (ps : Parameters) (e : Escaping) (position : Position) : List (List Char) :=
  let bare : Bool := ps.style == .key && ps.entries.length == 1
  ps.entries.map fun (name, value) =>
    let value := escape e position (value.chars ps.protocol)
    if bare then value else escape e position name.toList ++ '=' :: value

def chars (ps : Parameters) (e : Escaping) : Position → List Char
  | .path => '(' :: joinWith [','] (ps.members e .path) ++ [')']
  | .query => joinWith ['&'] (ps.members e .query)

def render (ps : Parameters) (e : Escaping) (position : Position) : String :=
  String.ofList (ps.chars e position)

/-- What writing the set gives cause to warn of: no service takes a key without members. -/
def warnings (ps : Parameters) : List Warning :=
  if ps.entries.isEmpty && ps.style == .key then [.emptyKey] else []

end Parameters

end OData
