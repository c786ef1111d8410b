import OData.Batch.Execution
import OData.Proofs.Batch.Reachable
import OData.Proofs.Response.Access

/-!
# What the entries of an answer come to

The answers to the requests of a batch are made one after the other, and making one may give a
warning. None of that changes what they are: `outcomeOf` says what an entry comes to, given the
request that it answers, and **the answers to a batch are the outcomes of the entries in the order
of the response** (`on_answers`).

So it can be said which request a failed answer belongs to (`locus_of_failed_answer`): to the one
that the entry answers if the entry could be read as a response, and to the batch as a whole
otherwise.
-/

set_option autoImplicit false

namespace OData

open OData.Multipart

/-! ## Places -/

structure Multipart.Placed where
  part : Nat
  index : Nat
  entry : Entry
  deriving DecidableEq, Repr

def Multipart.placedIn (part index : Nat) (es : List Entry) : List Placed :=
  (es.zipIdx index).map fun (e, k) => ⟨part, k, e⟩

/-- The entries of all parts with their places, in the order of the body. -/
def Multipart.placed (part : Nat) (parts : List (List Entry)) : List Placed :=
  (parts.zipIdx part).flatMap fun (es, k) => placedIn k 0 es

namespace Multipart

theorem placedIn_cons (part index : Nat) (e : Entry) (es : List Entry) :
    placedIn part index (e :: es) = ⟨part, index, e⟩ :: placedIn part (index + 1) es := rfl

theorem placed_cons (part : Nat) (es : List Entry) (parts : List (List Entry)) :
    placed part (es :: parts) = placedIn part 0 es ++ placed (part + 1) parts := rfl

theorem entries_placedIn (part index : Nat) (es : List Entry) :
    (placedIn part index es).map Placed.entry = es := by
  induction es generalizing index with
  | nil => rfl
  | cons e es ih => rw [placedIn_cons, List.map_cons, ih]

theorem entries_placed (part : Nat) (parts : List (List Entry)) :
    (placed part parts).map Placed.entry = parts.flatten := by
  induction parts generalizing part with
  | nil => rfl
  | cons es parts ih =>
    rw [placed_cons, List.map_append, entries_placedIn, ih, List.flatten_cons]

/-! ## Entries that can be read -/

theorem Entry.body_of_answer {e : Entry} {a : Answer} (h : e.answer = .ok a) :
    ∃ content, a.body = some (.ofBytes content) := by
  unfold answer at h
  dsimp only at h
  split at h
  · cases h
  split at h
  · cases h
  · cases h
    exact ⟨_, rfl⟩

/-- Reading an entry knows nothing of requests. -/
theorem Entry.locus_of_answer {e : Entry} {f : Failure} (h : e.answer = .error f) :
    f.locus = none := by
  unfold answer at h
  dsimp only at h
  split at h
  · cases h
    rfl
  split at h
  · cases h
    rfl
  · cases h

end Multipart

namespace Batch

/-! ## Summaries -/

/-- What a failure says of the request that it belongs to: its method, its URI as shown, its protocol
and its Content-ID. -/
def Item.summary (i : Item) : Locus :=
  ⟨i.request.method, i.request.displayUri, i.request.protocol, some i.contentId⟩

/-- What it says of a batch, which is posted and has no Content-ID. -/
def summary (b : Batch) : Locus := ⟨.post, b.displayUri, b.context.protocol, none⟩

theorem Item.locus_eq_summary (i : Item) : i.locus = i.summary := rfl

theorem locus_eq_summary (b : Batch) : b.locus = b.summary := rfl

theorem summary_ne_summary (b : Batch) (i : Item) : b.summary ≠ i.summary := by
  intro h
  have hid := congrArg Locus.contentId h
  cases hid

/-! ## Outcomes -/

/-- The response in an entry that answers an item, or no item of the batch. -/
def subResponse (batchLocus : Locus) (item : Option Item) (a : Answer) : Response :=
  .of (item.map Item.request) ((item.map Item.locus).getD batchLocus) a false

def outcomeOf (batchLocus : Locus) (item : Option Item) (e : Entry) : Except Failure Response :=
  match e.answer with
  | .error f => .error (f.atRequest batchLocus)
  | .ok a =>
    let r := subResponse batchLocus item a
    if a.status < 400 then .ok r
    else .error ((r.unhealthy (a.body.map Source.rest)).atRequest r.locus)

def outcome (b : Batch) (batchLocus : Locus) (p : Placed) : Except Failure Response :=
  outcomeOf batchLocus (b.itemFor p.part p.index p.entry).1 p.entry

/-- What is left to do once it is known which item an entry answers. -/
theorem run_answer (l : Locus) (item : Option Item) (e : Entry) (j : Journal) :
    ∃ j', (match e.answer with
      | .error f => return .error (f.orAtRequest l)
      | .ok a => do
        let (outcome, r) ← (Access.healthy.run).run (subResponse l item a)
        return outcome.map fun _ => r : StateM Journal (Except Failure Response)).run j =
      (outcomeOf l item e, j') := by
  unfold outcomeOf
  cases ha : e.answer with
  | error f =>
    refine ⟨j, ?_⟩
    dsimp only
    rw [Failure.orAtRequest, Entry.locus_of_answer ha, Option.none_or]
    rfl
  | ok a =>
    obtain ⟨content, hbody⟩ := Entry.body_of_answer ha
    dsimp only
    rw [StateT.run_bind]
    by_cases hs : a.status < 400
    · have hok := Access.on_healthy_of_lt (r := subResponse l item a) hs j
      rw [Access.on] at hok
      exact ⟨j, by rw [hok, if_pos hs]; rfl⟩
    · have hentity : (subResponse l item a).hasEntity = true := congrArg Option.isSome hbody
      have hstate : (subResponse l item a).body.state = .pending (some (.ofBytes content)) :=
        congrArg Body.State.pending hbody
      obtain ⟨r', j', herror⟩ := Access.on_healthy_of_le (r := subResponse l item a)
        (Nat.not_lt.mp hs) hentity hstate j
      rw [Access.on] at herror
      exact ⟨j', by rw [herror, if_neg hs, hbody]; rfl⟩

/-- One answer. The journal may get a warning and has no part in the answer. -/
theorem run_answerOf (b : Batch) (l : Locus) (part index : Nat) (e : Entry) (j : Journal) :
    ∃ j', (b.answerOf l part index e).run j = (b.outcome l ⟨part, index, e⟩, j') := by
  unfold answerOf outcome
  dsimp only
  rcases b.itemFor part index e with ⟨item, named⟩
  cases named with
  | true => exact run_answer l item e j
  | false => exact run_answer l item e (j.warn [.unknownContentId])

theorem run_answersOfPart (b : Batch) (l : Locus) (part index : Nat) (es : List Entry)
    (j : Journal) :
    ∃ j', (b.answersOfPart l part index es).run j =
      ((placedIn part index es).map (b.outcome l), j') := by
  induction es generalizing index j with
  | nil => exact ⟨j, rfl⟩
  | cons e es ih =>
    obtain ⟨j₁, h₁⟩ := b.run_answerOf l part index e j
    obtain ⟨j₂, h₂⟩ := ih (index + 1) j₁
    refine ⟨j₂, ?_⟩
    rw [answersOfPart, StateT.run_bind, h₁]
    show ((b.answersOfPart l part (index + 1) es >>= fun rs => pure (_ :: rs)).run j₁) = _
    rw [StateT.run_bind, h₂]
    rfl

theorem run_answersOf (b : Batch) (l : Locus) (part : Nat) (parts : List (List Entry))
    (j : Journal) :
    ∃ j', (b.answersOf l part parts).run j = ((placed part parts).map (b.outcome l), j') := by
  induction parts generalizing part j with
  | nil => exact ⟨j, rfl⟩
  | cons es parts ih =>
    obtain ⟨j₁, h₁⟩ := b.run_answersOfPart l part 0 es j
    obtain ⟨j₂, h₂⟩ := ih (part + 1) j₁
    refine ⟨j₂, ?_⟩
    rw [answersOf, StateT.run_bind, h₁]
    show ((b.answersOf l (part + 1) parts >>= fun rest => pure (_ ++ rest)).run j₁) = _
    rw [StateT.run_bind, h₂, placed_cons, List.map_append]
    rfl

end Batch

namespace BatchResponse

open Access

theorem on_parts_eq_ok {r r' : Response} {j j' : Journal} {ps : List (List Entry)}
    (h : on r j parts = ((.ok ps, r'), j')) :
    on r j walkParts = ((.ok ⟨ps, false⟩, r'), j') := by
  obtain ⟨⟨ps', broke⟩, r₁, j₁, hw, h⟩ := on_bind_eq_ok h
  cases broke with
  | true => cases h
  | false =>
    cases h
    exact hw

/-- The parts of a body are those of the stream that an access to it gives. -/
theorem on_parts_of_source {r r' : Response} {j j' : Journal} {s : Source} {boundary : String}
    {ps : List (List Entry)} (hb : boundaryOf? r.headers = some boundary)
    (hs : on r j source = ((.ok s, r'), j'))
    (hw : (Reader.start boundary s.rest s.breaksOff).walkAll.1 = ⟨ps, false⟩) :
    ∃ j'', on r j parts = ((.ok ps, r'), j'') := by
  -- What was pulled is noted in the journal and nowhere else.
  have hwalk : ∃ j'', on r j walkParts = ((.ok ⟨ps, false⟩, r'), j'') := by
    rcases hall : (Reader.start boundary s.rest s.breaksOff).walkAll with ⟨w, rest⟩
    rw [hall] at hw
    obtain rfl : w = ⟨ps, false⟩ := hw
    unfold walkParts
    rw [on_get_bind, hb]
    dsimp only
    rw [on_bind_ok hs, hall]
    exact ⟨_, on_bind_ok (on_pull _ _ _ _) _⟩
  obtain ⟨j'', hwalk⟩ := hwalk
  refine ⟨j'', ?_⟩
  unfold parts
  rw [on_bind_ok hwalk]
  rfl

/-- The parts of a body that is there, which leaves it in memory. -/
theorem on_parts {r : Response} {boundary : String} {content : List UInt8} {ps : List (List Entry)}
    (hb : boundaryOf? r.headers = some boundary) (hc : r.body.Holds content)
    (hw : (Reader.start boundary content false).walkAll.1 = ⟨ps, false⟩) (j : Journal) :
    ∃ j', on r j parts = ((.ok ps, r.inMemory content), j') := by
  obtain ⟨s, j₁, hsource, rfl, hbreaks⟩ := on_source_of_holds hc j
  exact on_parts_of_source hb hsource (by rw [hbreaks, hw])

/-- **The answers are the outcomes of the entries**, in the order of the body, if that can be read
to its end. -/
theorem on_answers (b : Batch) {r r' : Response} {j j' : Journal} {ps : List (List Entry)}
    (hp : on r j parts = ((.ok ps, r'), j')) :
    ∃ j'', on r j (answers b) = ((.ok ((placed 0 ps).map (b.outcome r.locus)), r'), j'') := by
  have hcatch : on r j (tryCatch walkParts fun f => throw (f.orAtRequest r.locus)) =
      ((.ok ⟨ps, false⟩, r'), j') := by
    rw [on_tryCatch, on_parts_eq_ok hp]
  obtain ⟨j'', hrun⟩ := b.run_answersOf r.locus 0 ps j'
  refine ⟨j'', ?_⟩
  unfold answers
  rw [on_get_bind, on_bind_ok hcatch, on_getThe_bind, hrun, on_setJournal_bind,
    if_neg Bool.false_ne_true]
  rfl

/-! ## Whose failure it is -/

/-- The failure of an entry that could be read is one of the item that it answers, and that of any
other entry is one of the batch. -/
theorem locus_of_outcomeOf {l : Locus} {i : Batch.Item} {e : Entry} {f : Failure}
    (h : Batch.outcomeOf l (some i) e = .error f) :
    (∃ a, e.answer = .ok a) ∧ f.locus = some i.summary ∨
      (∃ g, e.answer = .error g) ∧ f.locus = some l := by
  unfold Batch.outcomeOf at h
  split at h
  · next g hg =>
    cases h
    exact .inr ⟨⟨g, hg⟩, rfl⟩
  · next a ha =>
    dsimp only at h
    split at h
    · cases h
    · cases h
      exact .inl ⟨⟨a, ha⟩, congrArg some i.locus_eq_summary⟩

/-- **A failed answer belongs to the request that its entry answers exactly if the entry could be
read as a response.** Otherwise it belongs to the batch, although it is known which request the
entry answers. -/
theorem locus_of_failed_answer {b : Batch} {r r' : Response} {j j' : Journal}
    {ps : List (List Entry)} (hr : r.locus = b.locus)
    (hp : on r j parts = ((.ok ps, r'), j')) :
    ∃ rs j'', on r j (answers b) = ((.ok rs, r'), j'') ∧ rs.length = (placed 0 ps).length ∧
      ∀ (n : Nat) (p : Placed) (i : Batch.Item) (f : Failure), (placed 0 ps)[n]? = some p →
        (b.itemFor p.part p.index p.entry).1 = some i → rs[n]? = some (.error f) →
          (f.locus = some i.summary ↔ ∃ a, p.entry.answer = .ok a) ∧
            (f.locus = some i.summary ∨ f.locus = some b.summary) := by
  obtain ⟨j'', hanswers⟩ := on_answers b hp
  refine ⟨_, j'', hanswers, List.length_map _, ?_⟩
  intro n p i f hn hi hf
  rw [List.getElem?_map, hn, Option.map_some, Option.some.injEq, Batch.outcome, hi] at hf
  rcases locus_of_outcomeOf hf with ⟨ha, hl⟩ | ⟨⟨g, hg⟩, hl⟩
  · exact ⟨⟨fun _ => ha, fun _ => hl⟩, .inl hl⟩
  · -- The entry could not be read, and its failure is one of the batch.
    rw [hr, b.locus_eq_summary] at hl
    have hne : f.locus ≠ some i.summary := by
      intro h
      exact b.summary_ne_summary i (Option.some.inj (hl.symm.trans h))
    refine ⟨⟨fun h => absurd h hne, ?_⟩, .inr hl⟩
    rintro ⟨a, ha⟩
    rw [hg] at ha
    cases ha

def replyWith (content : String) : Response :=
  { Response.of none Batch.sampleBatch.locus
      ⟨202, "Accepted", .ofPairs [("Content-Type", "multipart/mixed; boundary=b")], none⟩ true with
    body := ⟨true, .buffered (Text.Utf8.ofString content)⟩ }

/-- A response with an entry that cannot be read and one with a failing status. -/
def unreadableReply : Response :=
  replyWith ("--b\nContent-ID: 1\n\nno response\n" ++
    "--b\nContent-ID: 2\n\nHTTP/1.1 404 Not Found\n--b--\n")

theorem boundary_replyWith (content : String) :
    boundaryOf? (replyWith content).headers = some "b" := by
  have h : boundaryOf? (.ofPairs [("Content-Type", "multipart/mixed; boundary=b")]) = some "b" := by
    decide +kernel
  exact h

theorem on_parts_unreadableReply :
    ∃ j, on unreadableReply .empty parts =
      ((.ok [[⟨"Content-ID: 1", "no response"⟩], [⟨"Content-ID: 2", "HTTP/1.1 404 Not Found"⟩]],
        unreadableReply), j) :=
  on_parts (boundary_replyWith _) (.buffered true) (by decide +kernel) .empty

/-- Both failures are known to answer a request; the first belongs to the batch all the same. -/
theorem loci_of_unreadableReply :
    ∃ rs r j f g, on unreadableReply .empty (answers Batch.sampleBatch) = ((.ok rs, r), j) ∧
      rs[0]? = some (.error f) ∧ f.locus = some Batch.sampleBatch.summary ∧
      rs[1]? = some (.error g) ∧ g.locus.bind (·.contentId) = some 2 := by
  obtain ⟨j, hp⟩ := on_parts_unreadableReply
  obtain ⟨rs, j', hrun, -, hall⟩ := locus_of_failed_answer (b := Batch.sampleBatch) rfl hp
  obtain ⟨j'', hrun'⟩ := on_answers Batch.sampleBatch hp
  rw [hrun] at hrun'
  have hid : (⟨"Content-ID: 2", "HTTP/1.1 404 Not Found"⟩ : Entry).contentId? = some 2 := by
    decide +kernel
  have hitem : ∃ i, (Batch.sampleBatch.itemFor 1 0 ⟨"Content-ID: 2", "HTTP/1.1 404 Not Found"⟩).1 =
      some i ∧ i.contentId = 2 := by
    unfold Batch.itemFor
    rw [hid]
    exact ⟨_, rfl, rfl⟩
  obtain ⟨i, hi, hid⟩ := hitem
  cases hrun'
  refine ⟨_, _, _, _, _, hrun, rfl, rfl, rfl, ?_⟩
  rw [(hall 1 ⟨1, 0, _⟩ i _ rfl hi rfl).1.mpr ⟨_, rfl⟩, Option.bind_some, Batch.Item.summary, hid]

/-- The failure of the first entry is not one of the request whose Content-ID the entry carries. -/
theorem locus_of_unreadable_answer :
    ∃ rs r j i f, on unreadableReply .empty (answers Batch.sampleBatch) = ((.ok rs, r), j) ∧
      Batch.sampleBatch.itemOf? 1 = some i ∧
      (⟨"Content-ID: 1", "no response"⟩ : Entry).contentId? = some i.contentId ∧
      rs[0]? = some (.error f) ∧ f.locus ≠ some i.summary := by
  obtain ⟨j, hp⟩ := on_parts_unreadableReply
  obtain ⟨j', hanswers⟩ := on_answers Batch.sampleBatch hp
  refine ⟨_, _, j', _, _, hanswers, rfl, by decide +kernel, rfl, ?_⟩
  intro h
  exact Batch.summary_ne_summary _ _ (Option.some.inj h)

end BatchResponse

end OData
