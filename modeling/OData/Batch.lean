import OData.Execution
import OData.Multipart.Reader

/-!
# Batches

Several requests sent as one. Reads, key look-ups and function calls stand alone in a batch;
requests that change something are grouped in *changesets*, each of which succeeds or fails as a
whole. Every request that is taken in gets the next Content-ID, one after the other across
changesets, and `Batch.positionOf?` finds it again by that number.

The boundaries of the written form are guids drawn from a sequence that the caller provides: one for
the batch when it is made, and one for each changeset when it is ended.
-/

set_option autoImplicit false

namespace OData

open OData.Text

namespace Batch

structure Item where
  contentId : Nat
  request : Request
  resourcePath : String

namespace Item

def method (i : Item) : Method := i.request.method

def locus (i : Item) : Locus := { i.request.locus with contentId := some i.contentId }

end Item

structure Changeset where
  id : Guid
  items : List Item

inductive Part where
  | single (i : Item)
  | changeset (c : Changeset)

def Part.items : Part → List Item
  | .single i => [i]
  | .changeset c => c.items

/-- Where a request is in a batch: the index of the part, and the index inside it if the part is a
changeset. -/
structure Position where
  part : Nat
  inChangeset : Option Nat
  deriving DecidableEq, Repr

end Batch

structure Batch where
  context : Context
  /-- The guids to draw from, and how many have been drawn. -/
  guids : Nat → Guid
  drawn : Nat
  id : Guid
  parts : List Batch.Part
  nextId : Nat

namespace Batch

/-! ## Making batches -/

/-- A batch without requests. It does not ask for a particular content type. -/
def of (servicePath : String) (p : Protocol) (guids : Nat → Guid) : Batch :=
  let context := Context.initial servicePath p
  { context := { context with headers := context.headers.erase "Accept" }
    guids := guids
    drawn := 1
    id := guids 0
    parts := []
    nextId := 1 }

def change (b : Batch) (c : Context.Change) : Batch := { b with context := b.context.change c }

def uri (b : Batch) (e : Escaping) : Except Failure String :=
  b.context.link e ((Path.of "$batch").chars e) b.context.optionsQuery

def displayUri (b : Batch) : String :=
  match b.uri .regular with
  | .ok uri => uri
  | .error _ => String.ofList b.context.displayRoot

def locus (b : Batch) : Locus := ⟨.post, b.displayUri, b.context.protocol, none⟩

/-- The item that a request would become. Refused are other kinds of requests than the one
expected, requests whose URI cannot be made, requests to another service and requests of another
version of the protocol. -/
def asItem (b : Batch) (expected : String) (r : Request) : Except Failure Item :=
  let refuse (o : Obstacle) : Except Failure Item :=
    .error ((Failure.construction o).atRequest b.locus)
  if r.operation.name ≠ expected then refuse (.wrongKind r.operation.name expected)
  else
    match r.uri .batch with
    | .error f => .error f
    | .ok uri =>
      let root := Link.serviceRoot .batch b.context.servicePath.toList
      match dropPrefix? root uri.toList with
      | none => refuse (.foreignService (String.ofList root) uri)
      | some path =>
        if r.protocol ≠ b.context.protocol then
          refuse (.foreignProtocol b.context.protocol r.protocol)
        else .ok ⟨b.nextId, r, String.ofList path⟩

def warningsFor (expected : String) (r : Request) : List Warning :=
  if r.operation.name = expected then r.warnings else []

def add (b : Batch) (expected : String) (r : Request) : Except Failure Batch :=
  (b.asItem expected r).map fun item =>
    { b with parts := b.parts ++ [.single item], nextId := b.nextId + 1 }

/-- A changeset that is being put together, in a batch that already counts its requests. -/
structure Open where
  batch : Batch
  items : List Item

def beginChangeset (b : Batch) : Open := ⟨b, []⟩

def Open.add (o : Open) (expected : String) (r : Request) : Except Failure Open :=
  (o.batch.asItem expected r).map fun item =>
    ⟨{ o.batch with nextId := o.batch.nextId + 1 }, o.items ++ [item]⟩

/-- The batch with the changeset, which gets its boundary now. -/
def Open.finish (o : Open) : Batch :=
  let b := o.batch
  { b with
    parts := b.parts ++ [.changeset ⟨b.guids b.drawn, o.items⟩]
    drawn := b.drawn + 1 }

/-- The batch without the changeset; the Content-IDs of its requests stay used. -/
def Open.discard (o : Open) : Batch := o.batch

/-! ## Looking up -/

/-- The position of a Content-ID in some parts, of which the first has index `index`. -/
def positionIn? (contentId index : Nat) : List Part → Option Position
  | [] => none
  | .single i :: r =>
    if i.contentId = contentId then some ⟨index, none⟩ else positionIn? contentId (index + 1) r
  | .changeset c :: r =>
    match c.items.findIdx? (·.contentId == contentId) with
    | some k => some ⟨index, some k⟩
    | none => positionIn? contentId (index + 1) r

def positionOf? (b : Batch) (contentId : Nat) : Option Position :=
  positionIn? contentId 0 b.parts

def itemAt? (b : Batch) (p : Position) : Option Item :=
  match b.parts[p.part]?, p.inChangeset with
  | some (.single i), none => some i
  | some (.changeset c), some k => c.items[k]?
  | _, _ => none

def itemOf? (b : Batch) (contentId : Nat) : Option Item :=
  (b.positionOf? contentId).bind b.itemAt?

/-! ## The written form -/

def boundary (b : Batch) : String := "batch_" ++ b.id.render

def Changeset.boundary (c : Changeset) : String := "changeset_" ++ c.id.render

/-- A request as a part of the body: the headers of the part, the request line, its headers and its
body, with a blank line after each group and one at the end. -/
def Item.lines (i : Item) : List String :=
  ["Content-Type: application/http", "Content-Transfer-Encoding: binary",
   "Content-ID: " ++ decimal i.contentId, "",
   i.method.name ++ " " ++ i.resourcePath ++ " HTTP/1.1"]
    ++ i.request.sentHeaders.pairs.map (fun (name, value) => name ++ ": " ++ value)
    ++ [""] ++ i.request.operation.body?.toList ++ [""]

/-- Parts with a delimiter line before each and a closing one at the end. -/
def delimited (boundary : String) (parts : List (List String)) : List String :=
  parts.flatMap (fun ls => ("--" ++ boundary) :: ls) ++ ["--" ++ boundary ++ "--", ""]

def Changeset.lines (c : Changeset) : List String :=
  ["Content-Type: multipart/mixed;boundary=" ++ c.boundary, ""]
    ++ delimited c.boundary (c.items.map Item.lines)

def Part.lines : Part → List String
  | .single i => i.lines
  | .changeset c => c.lines

/-- The body of the batch, with carriage return and line feed between its lines. -/
def body (b : Batch) : String :=
  String.ofList
    (joinWith ['\r', '\n'] ((delimited b.boundary (b.parts.map Part.lines)).map String.toList))

def sentHeaders (b : Batch) : Headers :=
  (b.context.headers.insert "Content-Type" ("multipart/mixed;boundary=" ++ b.boundary)).insert
    "OData-Version" b.context.protocol.version

end Batch

end OData
