import OData.Batch

/-!
# Executing batches

A batch is sent like a request that changes the service: always with the token handshake, and with
listeners told of the call and of a failure. The response is a multipart body with one entry for
each request; `BatchResponse.answers` matches the entries with the requests, by Content-ID where an
entry has a known one and by position otherwise. An entry with a failing status is a failure of its
own and leaves the others alone.
-/

set_option autoImplicit false

namespace OData

structure BatchResponse where
  response : Response
  batch : Batch

namespace Batch

def callAt (b : Batch) (uri : String) (headers : Headers) : Call :=
  ⟨.post, uri, headers, some b.body⟩

def sendWith (b : Batch) (uri : String) (headers : Headers) :
    Session (Except Failure Response) := do
  match ← Session.call b.context.listeners b.locus (b.callAt uri headers) with
  | .error f => return .error f
  | .ok answer =>
    let r := Response.of none b.locus answer true
    let r := { r with body := { r.body with buffering := b.context.buffering } }
    Session.requireHealthy r

def execute (b : Batch) : Session (Except Failure BatchResponse) := do
  let outcome ←
    match b.uri .regular with
    | .error f => pure (.error (f.orAtRequest b.locus))
    | .ok uri =>
      pure (← Handshake.run b.context.tokens b.context.servicePath b.sentHeaders
        (b.sendWith uri)).1
  modify (·.reportError b.context.listeners outcome)
  return outcome.map fun response => ⟨response, b⟩

/-- The request that stands at a position of the answer. A changeset that failed is answered by one
entry in its place. -/
def itemByPosition? (b : Batch) (part index : Nat) : Option Item :=
  b.parts[part]?.bind (·.items[index]?)

/-- The request that an entry at some position answers, and whether the entry itself names it. -/
def itemFor (b : Batch) (part index : Nat) (e : Multipart.Entry) : Option Item × Bool :=
  match e.contentId?.bind b.itemOf? with
  | some i => (some i, true)
  | none => (b.itemByPosition? part index, false)

/-- The response in an entry. It belongs to the request that it answers, or to the batch if there
is none. -/
def answerOf (b : Batch) (batchLocus : Locus) (part index : Nat) (e : Multipart.Entry) :
    StateM Journal (Except Failure Response) := do
  let (item, named) := b.itemFor part index e
  if !named then modify (·.warn [.unknownContentId])
  let locus := ((item.map Item.locus).getD batchLocus)
  match e.answer with
  -- An entry that is no response fails as the batch does, whatever it answers.
  | .error f => return .error (f.orAtRequest batchLocus)
  | .ok answer =>
    let r := Response.of (item.map Item.request) locus answer false
    let (outcome, r) ← (Access.healthy.run).run r
    return outcome.map fun _ => r

/-- The responses in the entries of one part, of which the first has index `index`. -/
def answersOfPart (b : Batch) (batchLocus : Locus) (part index : Nat) :
    List Multipart.Entry → StateM Journal (List (Except Failure Response))
  | [] => return []
  | e :: es => do
    let r ← b.answerOf batchLocus part index e
    let rs ← b.answersOfPart batchLocus part (index + 1) es
    return r :: rs

/-- The responses in all parts, of which the first has index `part`. -/
def answersOf (b : Batch) (batchLocus : Locus) (part : Nat) :
    List (List Multipart.Entry) → StateM Journal (List (Except Failure Response))
  | [] => return []
  | es :: parts => do
    let rs ← b.answersOfPart batchLocus part 0 es
    let rest ← b.answersOf batchLocus (part + 1) parts
    return rs ++ rest

end Batch

namespace BatchResponse

/-- The responses to the requests of a batch, in the order of the answer. Fails as a whole if the
body cannot be read to its end. -/
def answers (b : Batch) : Access (List (Except Failure Response)) := do
  let locus := (← get).locus
  let w ← tryCatch Access.walkParts fun f => throw (f.orAtRequest locus)
  let (rs, j) := (b.answersOf locus 0 w.parts).run (← getThe Journal)
  set j
  if w.broke then throw Multipart.Broken.failure else return rs

def contentIdOf : Except Failure Response → Option Nat
  | .ok r => r.locus.contentId
  | .error f => f.locus.bind (·.contentId)

/-- The response to the request with a Content-ID: the first answer that belongs to it. -/
def answerFor (b : Batch) (contentId : Nat) : Access (Except Failure Response) := do
  let rs ← answers b
  match rs.find? (contentIdOf · == some contentId) with
  | some r => return r
  | none =>
    throw ((Failure.unreadable (.noSubResponse contentId)).atRequest (← get).locus)

end BatchResponse

end OData
