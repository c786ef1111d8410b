import OData.Percent
import OData.Text.Split
import OData.Text.Ascii

/-!
# Links

Relative URIs of the service: which characters each part may hold, how a service path is tidied and
put together with a resource path and a query, and how the query and the paging tokens are read out
of a link again. A query is never escaped here; `Link.compose?` refuses one that holds a character
which an escaped query cannot have.
-/

set_option autoImplicit false

namespace OData

open OData.Text

/-! ## Escaping -/

inductive Escaping where
  | none
  | regular
  /-- For the request lines inside a batch, where almost everything is escaped. -/
  | batch
  deriving DecidableEq, Repr

namespace Escaping

def isPlain (c : Char) : Bool := c.isAlphanum

/-- What a path segment may hold as it stands: all that the grammar of URIs allows there, so a
slash is escaped. -/
def keepsInSegment (c : Char) : Bool := isPlain c || "-._~!$&'()*+,;=:@".toList.contains c

def keepsInQuery (c : Char) : Bool := isPlain c || "_*-:,/'().".toList.contains c

def keepsInBatch (c : Char) : Bool := isPlain c || "_~-.".toList.contains c

def segment (e : Escaping) (s : List Char) : List Char :=
  match e with
  | none => s
  | regular => Percent.encode keepsInSegment s
  | batch => Percent.encode keepsInBatch s

def query (e : Escaping) (s : List Char) : List Char :=
  match e with
  | none => s
  | regular => Percent.encode keepsInQuery s
  | batch => Percent.encode keepsInBatch s

end Escaping

namespace Link

/-! ## Service paths -/

def escapePath (e : Escaping) (path : List Char) : List Char :=
  joinWith ['/'] ((splitOn '/' path).map e.segment)

def collapseSlashes : List Char → List Char
  | [] => []
  | [c] => [c]
  | '/' :: '/' :: r => collapseSlashes ('/' :: r)
  | c :: d :: r => c :: collapseSlashes (d :: r)

/-- A path in the form `/a/b/c`: a slash in front, none at the end and no two in a row. An empty
path stays empty. -/
def tidy (path : List Char) : List Char := dropLastIf '/' (collapseSlashes ('/' :: path))

def serviceRoot (e : Escaping) (servicePath : List Char) : List Char :=
  tidy (escapePath e servicePath) ++ ['/']

/-! ## Putting links together -/

def isQueryChar (c : Char) : Bool :=
  c.isAlphanum || "/?:@-._~!$&'()*+,;=%".toList.contains c

def isEscapedQuery (q : List Char) : Bool := q.all isQueryChar

/-- The tidy service path, the resource path and the query, if there is one. Nothing if the query
was not escaped. -/
def compose? (e : Escaping) (servicePath resourcePath query : List Char) : Option (List Char) :=
  let resourcePath := if resourcePath.head? = some '/' then resourcePath else '/' :: resourcePath
  let uri := tidy (escapePath e servicePath) ++ resourcePath
  if query.isEmpty then some uri
  else if isEscapedQuery query then some (uri ++ '?' :: query)
  else none

/-! ## Taking links apart -/

/-- The query of a link without the question mark and any fragment. -/
def query? (link : List Char) : Option (List Char) :=
  (splitFirst '?' link).map fun (_, rest) => ((splitFirst '#' rest).map Prod.fst).getD rest

/-- The characters that count as the letter `k`, `s` and so on when case is ignored: besides the
two cases of the letter, the Kelvin sign for `k` and the long s for `s`. -/
def folded (c : Char) : Char :=
  if c = '\u212a' then 'k' else if c = '\u017f' then 's' else c.toLower

/-- What follows `name` at the start of a text, without regard to case. -/
def afterName? : List Char → List Char → Option (List Char)
  | [], s => some s
  | _ :: _, [] => none
  | n :: name, c :: s => if folded c = n then afterName? name s else none

/-- The value of the first option in a link that is called `name` and has one; it reaches to the
next ampersand. -/
def option? (name : List Char) : List Char → Option (List Char)
  | [] => none
  | c :: r =>
    match (afterName? name (c :: r)).map (·.takeWhile (· != '&')) with
    | some (v :: vs) => some (v :: vs)
    | _ => option? name r

def deltaToken? (link : List Char) : Option (List Char) := option? "$deltatoken=".toList link

def skipToken? (link : List Char) : Option (List Char) := option? "$skiptoken=".toList link

end Link

end OData
