import OData.Proofs.Batch.Answers
import OData.Proofs.Batch.Execution
import OData.Proofs.Batch.Reachable
import OData.Proofs.Multipart.Calls
import OData.Proofs.Response.Reading

/-!
# Whose failures there are

Reading the answers to a batch may fail in many places: the response has no boundary, its body
cannot be had or breaks off, an entry is no response or has a failing status, or no entry answers
the request that is asked for. `Response.walk` sums up what comes of the body, and `answersIn` and
`answerIn` what is made of it.

**Every failure belongs to the batch or to the request that an entry answers, with one exception**
(`loci_of_execute`): a stream that breaks off while its parts are being read gives a failure without
a request. A body that is buffered never does so, as it is read as a whole before its parts are.
-/

set_option autoImplicit false

namespace OData

open OData.Multipart

/-- Only a stream that is handed out as it comes can break off in the hands of its reader. -/
theorem Body.of_offer_breaking {b : Body} {s : Source} (h : b.offer = .ok s)
    (hs : s.breaksOff = true) : b.buffering = false ∧ b.state = .pending (some s) := by
  unfold offer at h
  split at h
  · cases h
  · next s' hstate =>
    split at h
    · split at h
      · cases h
      · cases h
        cases hs
    · next hbuffering =>
      cases h
      exact ⟨Bool.eq_false_iff.mpr hbuffering, hstate⟩
  · cases h
    cases hs
  · cases h

namespace Response

/-! ## What comes of the body -/

/-- The parts of the body, as far as it could be read, or the reason why there are none. -/
def walk (r : Response) : Except Failure Walk :=
  match boundaryOf? r.headers with
  | none => .error (.unreadable .noBoundary)
  | some boundary =>
    match r.body.offer with
    | .error e => .error (e.failure.atRequest r.locus)
    | .ok s => .ok (Reader.start boundary s.rest s.breaksOff).walkAll.1

/-- Whether the body breaks off while its parts are being read. -/
def breaksInside (r : Response) : Bool :=
  match r.walk with
  | .error _ => false
  | .ok w => w.broke

variable {r : Response}

theorem breaksInside_of_walk {w : Walk} (h : r.walk = .ok w) : r.breaksInside = w.broke := by
  unfold breaksInside
  rw [h]

theorem locus_of_walk {f : Failure} (h : r.walk = .error f) :
    (f.orAtRequest r.locus).locus = some r.locus := by
  unfold walk at h
  split at h
  · cases h
    rfl
  · split at h
    · cases h
      rfl
    · cases h

/-- A body that does not break off is read to its end, so one that breaks off inside is a stream
that is not buffered. -/
theorem of_breaksInside (h : r.breaksInside = true) :
    r.body.buffering = false ∧ ∃ s, r.body.state = .pending (some s) ∧ s.breaksOff = true := by
  unfold breaksInside walk at h
  split at h
  · cases h
  next w hw =>
  split at hw
  · cases hw
  next boundary _ =>
  split at hw
  · cases hw
  next s hs =>
  cases hw
  cases hb : s.breaksOff with
  | true =>
    obtain ⟨hbuffering, hstate⟩ := Body.of_offer_breaking hs hb
    exact ⟨hbuffering, s, hstate, hb⟩
  | false =>
    obtain ⟨ps, r', hreads⟩ := exists_reads (r := Reader.start boundary s.rest false) rfl
    rw [hb, walkAll_of_reads hreads] at h
    cases h

end Response

theorem Access.on_walkParts (r : Response) (j : Journal) :
    ∃ r' j', on r j walkParts = ((r.walk, r'), j') ∧ r'.locus = r.locus := by
  unfold walkParts Response.walk
  rw [on_get_bind]
  cases boundaryOf? r.headers with
  | none => exact ⟨r, j, rfl, rfl⟩
  | some boundary =>
    dsimp only
    rw [on_bind, on_source]
    cases r.body.offer with
    | error e => exact ⟨r.accessed, _, rfl, rfl⟩
    | ok s =>
      dsimp only
      rcases (Reader.start boundary s.rest s.breaksOff).walkAll with ⟨w, rest⟩
      dsimp only
      rw [on_bind_ok (on_pull _ _ _ _)]
      exact ⟨r.accessed, _, rfl, rfl⟩

namespace Batch

/-! ## What comes of the entries -/

theorem mem_of_itemByPosition? {b : Batch} {part index : Nat} {i : Item}
    (h : b.itemByPosition? part index = some i) : i ∈ b.items := by
  obtain ⟨p, hp, hi⟩ := Option.bind_eq_some_iff.mp h
  exact List.mem_flatMap.mpr ⟨p, List.mem_of_getElem? hp, List.mem_of_getElem? hi⟩

/-- An entry answers a request of the batch if it answers any. -/
theorem mem_of_itemFor {b : Batch} {part index : Nat} {e : Entry} {i : Item}
    (h : (b.itemFor part index e).1 = some i) : i ∈ b.items := by
  unfold itemFor at h
  split at h
  · next i' hi =>
    cases h
    obtain ⟨k, -, hk⟩ := Option.bind_eq_some_iff.mp hi
    rw [itemOf?_eq_find?] at hk
    exact List.mem_of_find?_eq_some hk
  · exact mem_of_itemByPosition? h

/-- The failure belongs to the request that the entry answers, or to the batch. -/
def Owns (b : Batch) (p : Placed) (f : Failure) : Prop :=
  f.locus = some b.summary ∨
    ∃ i, (b.itemFor p.part p.index p.entry).1 = some i ∧ f.locus = some i.summary

theorem owns_of_outcome {b : Batch} {p : Placed} {f : Failure}
    (h : b.outcome b.locus p = .error f) : b.Owns p f := by
  unfold outcome at h
  cases hi : (b.itemFor p.part p.index p.entry).1 with
  | some i =>
    rw [hi] at h
    rcases BatchResponse.locus_of_outcomeOf h with ⟨-, hl⟩ | ⟨-, hl⟩
    · exact .inr ⟨i, hi, hl⟩
    · exact .inl hl
  | none =>
    -- Without a request the response in the entry belongs to the batch as well.
    rw [hi] at h
    left
    unfold outcomeOf at h
    split at h
    · cases h
      rfl
    · dsimp only at h
      split at h
      · cases h
      · cases h
        rfl

/-- A failure with a Content-ID is one of a request that has it. -/
theorem Owns.item {b : Batch} {p : Placed} {f : Failure} (h : b.Owns p f) {k : Nat}
    (hk : f.locus.bind (·.contentId) = some k) :
    ∃ i ∈ b.items, i.contentId = k ∧ f.locus = some i.summary := by
  rcases h with hl | ⟨i, hi, hl⟩
  · rw [hl] at hk
    cases hk
  · rw [hl] at hk
    exact ⟨i, mem_of_itemFor hi, Option.some.inj hk, hl⟩

end Batch

namespace BatchResponse

open Access

/-! ## Answers -/

/-- The answers in a response as it stands, or the failure to read them. -/
def answersIn (b : Batch) (r : Response) : Except Failure (List (Except Failure Response)) :=
  match r.walk with
  | .error f => .error (f.orAtRequest r.locus)
  | .ok w =>
    if w.broke then .error Broken.failure
    else .ok ((placed 0 w.parts).map (b.outcome r.locus))

/-- The first answer in a response that belongs to the request with a Content-ID. -/
def answerIn (b : Batch) (r : Response) (contentId : Nat) :
    Except Failure (Except Failure Response) :=
  match answersIn b r with
  | .error f => .error f
  | .ok rs =>
    match rs.find? (contentIdOf · == some contentId) with
    | some answer => .ok answer
    | none => .error ((Failure.unreadable (.noSubResponse contentId)).atRequest r.locus)

variable (b : Batch) (r : Response) (j : Journal)

theorem on_answers_eq :
    ∃ r' j', on r j (answers b) = ((answersIn b r, r'), j') ∧ r'.locus = r.locus := by
  obtain ⟨r', j', hwalk, hlocus⟩ := on_walkParts r j
  unfold answers answersIn
  rw [on_get_bind, on_bind, on_tryCatch, hwalk]
  cases r.walk with
  | error f => exact ⟨r', j', rfl, hlocus⟩
  | ok w =>
    obtain ⟨j'', hrun⟩ := b.run_answersOf r.locus 0 w.parts j'
    refine ⟨r', j'', ?_, hlocus⟩
    dsimp only
    rw [on_getThe_bind, hrun, on_setJournal_bind]
    split
    · rfl
    · rfl

theorem on_answerFor_eq (contentId : Nat) :
    (on r j (answerFor b contentId)).1.1 = answerIn b r contentId := by
  obtain ⟨r', j', hanswers, hlocus⟩ := on_answers_eq b r j
  unfold answerFor answerIn
  rw [on_bind, hanswers]
  cases answersIn b r with
  | error f => rfl
  | ok rs =>
    dsimp only
    cases rs.find? (contentIdOf · == some contentId) with
    | some answer => rfl
    | none =>
      rw [← hlocus]
      rfl

variable {b r}

theorem of_answersIn_ok {rs : List (Except Failure Response)} (h : answersIn b r = .ok rs) :
    ∃ w, r.walk = .ok w ∧ w.broke = false ∧ rs = (placed 0 w.parts).map (b.outcome r.locus) := by
  unfold answersIn at h
  split at h
  · cases h
  next w hw =>
  split at h
  · cases h
  next hbroke =>
  cases h
  exact ⟨w, hw, Bool.eq_false_iff.mpr hbroke, rfl⟩

/-- A failure to read the answers belongs to the batch, unless the body broke off inside. -/
theorem locus_of_answersIn {f : Failure} (h : answersIn b r = .error f) :
    f.locus = if r.breaksInside then none else some r.locus := by
  unfold answersIn at h
  split at h
  · next g hw =>
    cases h
    have hwhole : r.breaksInside = false := by
      unfold Response.breaksInside
      rw [hw]
    rw [hwhole]
    exact Response.locus_of_walk hw
  · next w hw =>
    split at h
    · next hbroke =>
      cases h
      rw [Response.breaksInside_of_walk hw, hbroke]
      rfl
    · cases h

theorem answersIn_of_breaksInside (h : r.breaksInside = true) :
    answersIn b r = .error Broken.failure := by
  unfold Response.breaksInside at h
  unfold answersIn
  cases hw : r.walk with
  | error f =>
    rw [hw] at h
    cases h
  | ok w =>
    rw [hw] at h
    exact if_pos h

theorem locus_of_answerIn {contentId : Nat} {f : Failure}
    (h : answerIn b r contentId = .error f) :
    f.locus = if r.breaksInside then none else some r.locus := by
  unfold answerIn at h
  cases hrs : answersIn b r with
  | error g =>
    rw [hrs] at h
    cases h
    exact locus_of_answersIn hrs
  | ok rs =>
    obtain ⟨w, hw, hwhole, -⟩ := of_answersIn_ok hrs
    rw [hrs] at h
    dsimp only at h
    split at h
    · cases h
    · -- The answers could be read, so nothing broke off.
      cases h
      rw [Response.breaksInside_of_walk hw, hwhole]
      rfl

/-- An answer that is a failure is that of an entry, which stands at the same index. -/
theorem owns_of_answersIn (hr : r.locus = b.locus) {rs : List (Except Failure Response)}
    (h : answersIn b r = .ok rs) {n : Nat} {f : Failure} (hn : rs[n]? = some (.error f)) :
    ∃ w p, r.walk = .ok w ∧ (placed 0 w.parts)[n]? = some p ∧ b.Owns p f := by
  obtain ⟨w, hw, -, rfl⟩ := of_answersIn_ok h
  rw [List.getElem?_map, hr] at hn
  obtain ⟨p, hp, houtcome⟩ := Option.map_eq_some_iff.mp hn
  exact ⟨w, p, hw, hp, Batch.owns_of_outcome houtcome⟩

/-- What is given for a Content-ID is an answer to it, also if it is a failure. -/
theorem item_of_answerIn (hr : r.locus = b.locus) {contentId : Nat} {f : Failure}
    (h : answerIn b r contentId = .ok (.error f)) :
    ∃ i ∈ b.items, i.contentId = contentId ∧ f.locus = some i.summary := by
  unfold answerIn at h
  split at h
  · cases h
  next rs hrs =>
  split at h
  · next answer hfind =>
    cases h
    have hid : contentIdOf (.error f) = some contentId := by
      simpa using List.find?_some hfind
    obtain ⟨n, hn⟩ := List.mem_iff_getElem?.mp (List.mem_of_find?_eq_some hfind)
    obtain ⟨w, p, -, -, howns⟩ := owns_of_answersIn hr hrs hn
    exact howns.item hid
  · cases h

/-- **Whose the failures are.** Whatever the response of an executed batch is like, whatever has
been done to its body, and whether or not that is buffered: a failure to read the answers, or to
find the one for a Content-ID, belongs to the batch; an answer that is a failure belongs to the
request that its entry answers or to the batch, and to the request with the Content-ID if it was
asked for by that. The one failure without a request is that of a body that breaks off while its
parts are being read, and such a body is a stream that is not buffered. -/
theorem loci_of_execute {b : Batch} {n n' : Network} {x : BatchResponse}
    (hx : b.execute.run n = (.ok x, n')) {r : Response} (hr : r.core = x.response.core)
    (j : Journal) :
    (∀ f, (on r j (answers x.batch)).1.1 = .error f →
      f.locus = if r.breaksInside then none else some b.summary) ∧
    (∀ (rs : List (Except Failure Response)) (k : Nat) (f : Failure),
      (on r j (answers x.batch)).1.1 = .ok rs → rs[k]? = some (.error f) →
        ∃ w p, r.walk = .ok w ∧ (placed 0 w.parts)[k]? = some p ∧ b.Owns p f) ∧
    (∀ id f, (on r j (answerFor x.batch id)).1.1 = .error f →
      f.locus = if r.breaksInside then none else some b.summary) ∧
    (∀ id f, (on r j (answerFor x.batch id)).1.1 = .ok (.error f) →
      ∃ i ∈ b.items, i.contentId = id ∧ f.locus = some i.summary) ∧
    (r.breaksInside = true →
      r.body.buffering = false ∧ ∃ s, r.body.state = .pending (some s) ∧ s.breaksOff = true) := by
  obtain ⟨hbatch, hlocus⟩ := Batch.locus_of_execute hx
  have hl : r.locus = b.locus := by
    have hcore := congrArg Response.locus hr
    exact Eq.trans hcore hlocus
  have hanswers : (on r j (answers x.batch)).1.1 = answersIn b r := by
    obtain ⟨_, _, hrun, -⟩ := on_answers_eq x.batch r j
    rw [hrun, hbatch]
  have hanswer : ∀ id, (on r j (answerFor x.batch id)).1.1 = answerIn b r id := by
    intro id
    rw [on_answerFor_eq, hbatch]
  rw [hanswers, ← b.locus_eq_summary, ← hl]
  refine ⟨fun f hf => locus_of_answersIn hf, fun rs k f hrs hk => owns_of_answersIn hl hrs hk,
    ?_, ?_, Response.of_breaksInside⟩
  · intro id f hf
    rw [hanswer] at hf
    exact locus_of_answerIn hf
  · intro id f hf
    rw [hanswer] at hf
    exact item_of_answerIn hl hf

/-- The sample batch without a token handshake and without buffering. -/
def streamedBatch : Batch :=
  { Batch.sampleBatch with
    context := { Batch.sampleBatch.context with tokens := .disabled, buffering := false } }

/-- A reply with an entry for the second request. -/
def partsReply (breakAt : Option Nat) : Answer :=
  ⟨202, "Accepted", .ofPairs [("Content-Type", "multipart/mixed; boundary=b")],
    some (.breakingAfter breakAt
      (Text.Utf8.ofString "--b\nContent-ID: 2\n\nHTTP/1.1 404 Not Found\n--b--\n"))⟩

/-- The response to the sample batch on a stream. -/
def partsResponse (breakAt : Option Nat) : Response :=
  let r := Response.of none streamedBatch.locus
    { partsReply breakAt with body := (partsReply breakAt).body.map .overWire } true
  { r with body := { r.body with buffering := false } }

theorem execute_streamedBatch (breakAt : Option Nat) :
    ∃ n', streamedBatch.execute.run (.scripted [.ok (partsReply breakAt)]) =
      (.ok ⟨partsResponse breakAt, streamedBatch⟩, n') :=
  ⟨_, rfl⟩

/-- The entry is not healthy, and its failure belongs to the request that it names. -/
theorem loci_of_partsReply :
    ∃ x n' f i, streamedBatch.execute.run (.scripted [.ok (partsReply none)]) = (.ok x, n') ∧
      (on x.response n'.journal (answerFor x.batch 2)).1.1 = .ok (.error f) ∧
      i ∈ streamedBatch.items ∧ i.contentId = 2 ∧ f.locus = some i.summary := by
  obtain ⟨n', hx⟩ := execute_streamedBatch none
  have hfails : (match answerIn streamedBatch (partsResponse none) 2 with
      | .ok (.error _) => true
      | _ => false) = true := by
    decide +kernel
  split at hfails
  case h_2 => cases hfails
  next f hf =>
  have hanswer : (on (partsResponse none) n'.journal (answerFor streamedBatch 2)).1.1 =
      .ok (.error f) := (on_answerFor_eq _ _ _ _).trans hf
  obtain ⟨-, -, -, hitem, -⟩ := loci_of_execute hx (r := partsResponse none) rfl n'.journal
  obtain ⟨i, hi, hid, hl⟩ := hitem 2 f hanswer
  exact ⟨_, n', f, i, hx, hanswer, hi, hid, hl⟩

/-- The stream breaks off before the first delimiter is complete, and the failure belongs to
nothing. -/
theorem no_locus_of_partsReply :
    ∃ x n' f, streamedBatch.execute.run (.scripted [.ok (partsReply (some 2))]) = (.ok x, n') ∧
      (on x.response n'.journal (answers x.batch)).1.1 = .error f ∧ f.locus = none := by
  obtain ⟨n', hx⟩ := execute_streamedBatch (some 2)
  have hbreaks : (partsResponse (some 2)).breaksInside = true := by decide +kernel
  obtain ⟨_, _, hrun, -⟩ := on_answers_eq streamedBatch (partsResponse (some 2)) n'.journal
  rw [answersIn_of_breaksInside hbreaks] at hrun
  exact ⟨_, n', Broken.failure, hx, congrArg (·.1.1) hrun, rfl⟩

end BatchResponse

end OData
