import OData.Proofs.Batch.Correlation
import OData.Proofs.Batch.Loci

/-!
# Entries that name their request and entries that stand in its place

In one response some entries may carry the Content-ID of a request and others may not; those are
taken for answers by where they stand. What a request gets is the first answer that belongs to it,
in the order of the response, however it came to belong to it. **So the entry with the Content-ID is
the answer, unless an entry before it stands in the place of the request and names none**
(`BatchResponse.answerFor_prefers`).
-/

set_option autoImplicit false

namespace OData

open OData.Multipart

namespace Batch

variable {b : Batch} {i : Item}

/-- Whether an entry is taken for an answer to a request because of its place alone: it can be read,
it names no request of the batch, and it stands where that request stands. -/
def standsIn (b : Batch) (i : Item) (p : Placed) : Bool :=
  p.entry.answer.isOk && (p.entry.contentId?.bind b.itemOf?).isNone &&
    (b.itemByPosition? p.part p.index).any (·.contentId == i.contentId)

/-- What an entry comes to belongs to the request that it answers, if it can be read. -/
theorem contentIdOf_outcomeOf {l : Locus} (hl : l.contentId = none) (item : Option Item)
    (e : Entry) : BatchResponse.contentIdOf (outcomeOf l item e) =
      if e.answer.isOk then item.map Item.contentId else none := by
  unfold outcomeOf
  cases ha : e.answer with
  | error f => exact hl
  | ok a =>
    have hlocus : (subResponse l item a).locus.contentId = item.map Item.contentId := by
      cases item with
      | none => exact hl
      | some i => rfl
    dsimp only
    split
    · exact hlocus
    · exact hlocus

theorem outcomeOf_of_lt {l : Locus} {item : Option Item} {e : Entry} {a : Answer}
    (ha : e.answer = .ok a) (hs : a.status < 400) :
    outcomeOf l item e = .ok (subResponse l item a) := by
  unfold outcomeOf
  rw [ha]
  exact if_pos hs

/-- An entry that does not carry the Content-ID of a request gives an answer to it exactly if it
stands in its place. -/
theorem contentIdOf_outcome_of_ne {l : Locus} (hl : l.contentId = none) {p : Placed}
    (hne : p.entry.contentId? ≠ some i.contentId) :
    (BatchResponse.contentIdOf (b.outcome l p) == some i.contentId) = b.standsIn i p := by
  rw [outcome, contentIdOf_outcomeOf hl, standsIn]
  cases p.entry.answer.isOk with
  | false => rfl
  | true =>
    rw [if_pos rfl, Bool.true_and, itemFor]
    cases hnamed : p.entry.contentId?.bind b.itemOf? with
    | none => cases b.itemByPosition? p.part p.index <;> rfl
    | some x =>
      -- The entry names another request.
      obtain ⟨k, hk, hx⟩ := Option.bind_eq_some_iff.mp hnamed
      rw [itemOf?_eq_find?] at hx
      have hid : x.contentId = k := by simpa using List.find?_some hx
      rw [hk, ← hid] at hne
      exact beq_eq_false_iff_ne.mpr hne

theorem of_standsIn (hb : b.Sound) (hi : i ∈ b.items) {p : Placed} (h : b.standsIn i p = true) :
    (∃ a, p.entry.answer = .ok a) ∧ (b.itemFor p.part p.index p.entry).1 = some i := by
  rw [standsIn, Bool.and_eq_true, Bool.and_eq_true, Option.isNone_iff_eq_none] at h
  obtain ⟨⟨hread, hunnamed⟩, hplace⟩ := h
  constructor
  · cases ha : p.entry.answer with
    | ok a => exact ⟨a, rfl⟩
    | error f =>
      rw [ha] at hread
      cases hread
  · rw [itemFor, hunnamed]
    cases hx : b.itemByPosition? p.part p.index with
    | none =>
      rw [hx] at hplace
      cases hplace
    | some x =>
      rw [hx] at hplace
      exact congrArg some
        (hb.numbered.unique (mem_of_itemByPosition? hx) hi (beq_iff_eq.mp hplace))

end Batch

namespace BatchResponse

open Access

variable {b : Batch} {d : Document}

/-- The first entry that gives an answer to a request, among those up to the one with its
Content-ID. -/
theorem find?_outcomes (hb : b.Sound) {l : Locus} (hl : l.contentId = none) {i : Batch.Item}
    (hi : i ∈ b.items) {before after : List Placed} {p : Placed} {a : Answer}
    (hid : p.entry.contentId? = some i.contentId) (ha : p.entry.answer = .ok a)
    (hbefore : ∀ q ∈ before, q.entry.contentId? ≠ some i.contentId) :
    ((before ++ p :: after).map (b.outcome l)).find? (contentIdOf · == some i.contentId) =
      some (b.outcome l ((before.find? (b.standsIn i)).getD p)) := by
  have hp : (contentIdOf (b.outcome l p) == some i.contentId) = true := by
    rw [Batch.outcome, Batch.itemFor, Batch.Named.bind_itemOf? hb hi hid,
      Batch.contentIdOf_outcomeOf hl, ha]
    exact beq_self_eq_true _
  have hfirst : before.find? ((contentIdOf · == some i.contentId) ∘ b.outcome l) =
      before.find? (b.standsIn i) :=
    List.find?_congr fun q hq => Batch.contentIdOf_outcome_of_ne hl (hbefore q hq)
  rw [List.find?_map, List.find?_append, hfirst, List.find?_cons, Function.comp_apply, hp]
  cases before.find? (b.standsIn i) <;> rfl

theorem on_answerFor_first (hb : b.Sound) {r : Response} (hc : r.Carries d)
    (hl : r.locus.contentId = none) {i : Batch.Item} (hi : i ∈ b.items)
    {before after : List Placed} {p : Placed} (hplaced : placed 0 d.entries = before ++ p :: after)
    (hid : p.entry.contentId? = some i.contentId) {a : Answer} (ha : p.entry.answer = .ok a)
    (hbefore : ∀ q ∈ before, q.entry.contentId? ≠ some i.contentId) (j : Journal) :
    (on r j (answerFor b i.contentId)).1.1 =
      .ok (b.outcome r.locus ((before.find? (b.standsIn i)).getD p)) := by
  obtain ⟨r', j₁, hparts, -, -⟩ := hc.on_parts j
  obtain ⟨j', hanswers⟩ := on_answers b hparts
  unfold answerFor
  rw [on_bind_ok hanswers, hplaced, find?_outcomes hb hl hi hid ha hbefore]
  rfl

/-- **The answer to a request is in the entry with its Content-ID, unless one before it stands in
its place.** Take a response in which an entry that can be read has the Content-ID of a request, and
none before it has the same. If no entry before it stands in the place of the request, then what is
given for the Content-ID is an answer in that entry. Otherwise it is the answer in the first entry
that does. -/
theorem answerFor_prefers (hb : b.Reachable) {r : Response} (hc : r.Carries d)
    (hl : r.locus = b.locus) {i : Batch.Item} (hi : i ∈ b.items) {before after : List Placed}
    {p : Placed} (hplaced : placed 0 d.entries = before ++ p :: after)
    (hid : p.entry.contentId? = some i.contentId) {a : Answer} (ha : p.entry.answer = .ok a)
    (hbefore : ∀ q ∈ before, q.entry.contentId? ≠ some i.contentId) (j : Journal) :
    ∃ res, (on r j (answerFor b i.contentId)).1.1 = .ok res ∧
      match before.find? (b.standsIn i) with
      | none => Batch.IsAnswerTo i a res
      | some q => ∃ a', q.entry.answer = .ok a' ∧ Batch.IsAnswerTo i a' res := by
  have hs := hb.sound
  have hnone : r.locus.contentId = none := congrArg Locus.contentId hl
  refine ⟨_, on_answerFor_first hs hc hnone hi hplaced hid ha hbefore j, ?_⟩
  cases hq : before.find? (b.standsIn i) with
  | none =>
    rw [Option.getD_none, Batch.outcome, Batch.itemFor, Batch.Named.bind_itemOf? hs hi hid]
    exact Batch.isAnswerTo_outcomeOf ha
  | some q =>
    obtain ⟨⟨a', ha'⟩, hitem⟩ := Batch.of_standsIn hs hi (List.find?_some hq)
    rw [Option.getD_some, Batch.outcome, hitem]
    exact ⟨a', ha', Batch.isAnswerTo_outcomeOf ha'⟩

/-- An entry that names no request, in the place of the read. -/
def unnamedEntry : Placed := ⟨0, 0, ⟨"Content-Type: application/http", "HTTP/1.1 200 OK"⟩⟩

/-- An entry that names the read, behind that. -/
def namedEntry : Placed := ⟨1, 0, ⟨"Content-ID: 1", "HTTP/1.1 203 Second"⟩⟩

def mixedDocument : Document where
  boundary := "b"
  preamble := []
  parts :=
    [.single ⟨["Content-Type: application/http".toList], ["HTTP/1.1 200 OK".toList]⟩,
      .single ⟨["Content-ID: 1".toList], ["HTTP/1.1 203 Second".toList]⟩]
  foreign := ungroupedDocument.foreign
  wellFormed := by decide +kernel

def mixedReply : Response :=
  replyWith ("--b\r\nContent-Type: application/http\r\n\r\nHTTP/1.1 200 OK\r\n" ++
    "--b\r\nContent-ID: 1\r\n\r\nHTTP/1.1 203 Second\r\n--b--\r\n")

theorem carries_mixedReply : mixedReply.Carries mixedDocument :=
  ⟨boundary_replyWith _, _, [], .buffered true, by decide +kernel⟩

theorem placed_mixedDocument :
    placed 0 mixedDocument.entries = [unnamedEntry] ++ [namedEntry] := rfl

/-- The read of the sample batch. -/
def readItem : Batch.Item := Batch.sampleBatch.items[0]

theorem readItem_mem : readItem ∈ Batch.sampleBatch.items := .head _

theorem contentId_namedEntry : namedEntry.entry.contentId? = some readItem.contentId := by
  decide +kernel

theorem answer_namedEntry : ∃ a, namedEntry.entry.answer = .ok a ∧ a.status = 203 :=
  ⟨_, rfl, rfl⟩

theorem answer_unnamedEntry : ∃ a, unnamedEntry.entry.answer = .ok a ∧ a.status = 200 :=
  ⟨_, rfl, rfl⟩

theorem contentId_unnamedEntry :
    ∀ q ∈ [unnamedEntry], q.entry.contentId? ≠ some readItem.contentId := by
  decide +kernel

theorem find?_unnamedEntry :
    [unnamedEntry].find? (Batch.sampleBatch.standsIn readItem) = some unnamedEntry := by
  decide +kernel

/-- The read gets the answer in the entry that stands in its place. -/
theorem answerFor_prefers_mixedReply :
    ∃ res a, (on mixedReply .empty (answerFor Batch.sampleBatch readItem.contentId)).1.1 = .ok res ∧
      unnamedEntry.entry.answer = .ok a ∧ Batch.IsAnswerTo readItem a res := by
  obtain ⟨a, ha, -⟩ := answer_namedEntry
  obtain ⟨res, hres, hanswer⟩ := answerFor_prefers Batch.reachable_sampleBatch carries_mixedReply
    rfl readItem_mem placed_mixedDocument contentId_namedEntry ha contentId_unnamedEntry .empty
  rw [find?_unnamedEntry] at hanswer
  obtain ⟨a', ha', hanswer⟩ := hanswer
  exact ⟨res, a', hres, ha', hanswer⟩

/-- One of two entries has the Content-ID of the read and the other has none, and the read gets the
other. -/
theorem answer_of_unnamedEntry :
    ∃ a r, mixedReply.Carries mixedDocument ∧
      mixedDocument.entries.flatten = [unnamedEntry.entry, namedEntry.entry] ∧
      readItem ∈ Batch.sampleBatch.items ∧ unnamedEntry.entry.contentId? = none ∧
      namedEntry.entry.contentId? = some readItem.contentId ∧
      namedEntry.entry.answer = .ok a ∧ a.status = 203 ∧
      (on mixedReply .empty (answerFor Batch.sampleBatch readItem.contentId)).1.1 = .ok (.ok r) ∧
      r.status = 200 := by
  obtain ⟨a, ha, hstatus⟩ := answer_namedEntry
  obtain ⟨a', ha', hstatus'⟩ := answer_unnamedEntry
  have hs := Batch.reachable_sampleBatch.sound
  have hgiven := on_answerFor_first hs carries_mixedReply rfl readItem_mem placed_mixedDocument
    contentId_namedEntry ha contentId_unnamedEntry .empty
  rw [find?_unnamedEntry, Option.getD_some, Batch.outcome,
    (Batch.of_standsIn hs readItem_mem (List.find?_some find?_unnamedEntry)).2] at hgiven
  have hhealthy : a'.status < 400 := by
    rw [hstatus']
    decide
  rw [Batch.outcomeOf_of_lt ha' hhealthy] at hgiven
  exact ⟨a, _, carries_mixedReply, rfl, readItem_mem, by decide +kernel, contentId_namedEntry, ha,
    hstatus, hgiven, hstatus'⟩

end BatchResponse

end OData
