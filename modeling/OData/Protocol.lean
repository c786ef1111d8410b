/-!
# Protocol versions

The two versions of the protocol that the client speaks, and where each puts things in a JSON
document. A *place* in a document is a list of levels, each of them the names that a member may
have at that level, in the order in which they are looked for.
-/

set_option autoImplicit false

namespace OData

inductive Protocol where
  | v2
  | v4
  deriving DecidableEq, Repr

abbrev Place := List (List String)

namespace Protocol

def version : Protocol → String
  | v2 => "2.0"
  | v4 => "4.0"

def name (p : Protocol) : String := "OData " ++ p.version

def collectionPlace : Protocol → Place
  | v2 => [["d"], ["results"]]
  | v4 => [["value"]]

/-- Where a single entity stands; in the newer version it is the whole document. -/
def entityPlace : Protocol → Place
  | v2 => [["d"]]
  | v4 => []

/-- Where a primitive value stands. In the older version it is the only member of the object found
here. -/
def primitivePlace : Protocol → Place
  | v2 => [["d"]]
  | v4 => [["value"]]

def countPlace : Protocol → Place
  | v2 => [["d"], ["__count"]]
  | v4 => [["@odata.count", "@count"]]

def nextLinkPlace : Protocol → Place
  | v2 => [["d"], ["__next"]]
  | v4 => [["@odata.nextLink", "@nextLink"]]

/-- Where the link for later changes stands; the older version has none. -/
def deltaLinkPlace? : Protocol → Option Place
  | v2 => none
  | v4 => some [["@odata.deltaLink", "@deltaLink"]]

/-- The query option that asks for the total count, or asks for none. -/
def countOption : Protocol → Bool → String × String
  | v2, true => ("$inlinecount", "allpages")
  | v2, false => ("$inlinecount", "none")
  | v4, true => ("$count", "true")
  | v4, false => ("$count", "false")

end Protocol

end OData
