import OData.Text.Ascii
import OData.Text.Blank
import OData.Text.Split

/-!
# Headers

An ordered map from names to lists of values. Names that differ in the case of ASCII letters alone
are the same; a name keeps the spelling under which it first came in and its place in the order.
A name may be present without any values.
-/

set_option autoImplicit false

namespace OData

open OData.Text

structure Headers.Entry where
  name : String
  values : List String
  deriving DecidableEq, Repr

/-- Names with their values, in the order in which the names came in. -/
structure Headers where
  entries : List Headers.Entry
  deriving DecidableEq, Repr

namespace Headers

def empty : Headers := ⟨[]⟩

/-! ## Looking up -/

def entry? (h : Headers) (name : String) : Option Entry :=
  h.entries.find? (sameName name ·.name)

def getAll (h : Headers) (name : String) : List String :=
  ((h.entry? name).map Entry.values).getD []

def get? (h : Headers) (name : String) : Option String := (h.getAll name).head?

/-- Whether a name is present, with or without values. -/
def contains (h : Headers) (name : String) : Bool := h.entries.any (sameName name ·.name)

/-- Every name with every value, values of one name together. -/
def pairs (h : Headers) : List (String × String) :=
  h.entries.flatMap fun e => e.values.map (e.name, ·)

def names (h : Headers) : List String := h.entries.map Entry.name

def size (h : Headers) : Nat := h.entries.length

def isEmpty (h : Headers) : Bool := h.entries.isEmpty

/-! ## Changing -/

/-- The entries with the values of `name` changed by `f`; a new entry at the end if there is
none. -/
def change (name : String) (f : List String → List String) : List Entry → List Entry
  | [] => [⟨name, f []⟩]
  | e :: es =>
    if sameName name e.name then { e with values := f e.values } :: es else e :: change name f es

/-- The map with exactly these values for a name. -/
def insertAll (h : Headers) (name : String) (values : List String) : Headers :=
  ⟨change name (fun _ => values) h.entries⟩

def insert (h : Headers) (name value : String) : Headers := h.insertAll name [value]

/-- The map with one more value for a name, after those it has. -/
def append (h : Headers) (name value : String) : Headers :=
  ⟨change name (· ++ [value]) h.entries⟩

/-- The map with a value for a name that is not present; any other map is left as it is. -/
def insertIfAbsent (h : Headers) (name value : String) : Headers :=
  if h.contains name then h else h.append name value

/-- Whether a value is added for a name, which it is if the name is not present, and the map then. -/
def tryInsert (h : Headers) (name value : String) : Bool × Headers :=
  if h.contains name then (false, h) else (true, h.append name value)

theorem snd_tryInsert (h : Headers) (name value : String) :
    (h.tryInsert name value).2 = h.insertIfAbsent name value := by
  unfold tryInsert insertIfAbsent
  split <;> rfl

def erase (h : Headers) (name : String) : Headers :=
  ⟨h.entries.eraseP (sameName name ·.name)⟩

def appendAll (h : Headers) (pairs : List (String × String)) : Headers :=
  pairs.foldl (fun h p => h.append p.1 p.2) h

def extend (h other : Headers) : Headers := h.appendAll other.pairs

def ofPairs (pairs : List (String × String)) : Headers := empty.appendAll pairs

/-! ## Lists inside values -/

/-- The members of the lists that the values of a name hold, without blanks around them and
without empty ones. Lists have commas between their members, except that cookies have semicolons
because their dates contain commas. -/
def splitValues (h : Headers) (name : String) : List String :=
  let sep := if sameName name "Set-Cookie" then ';' else ','
  ((h.getAll name).flatMap fun v => (splitOn sep v.toList).map trim).filterMap fun piece =>
    if piece.isEmpty then none else some (String.ofList piece)

end Headers

end OData
