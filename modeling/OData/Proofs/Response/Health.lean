import OData.Proofs.Response.Lifecycle

/-!
# The health of a response

A status below 400 is healthy whatever the body, which is not even looked at. Any other status is a
failure with the status in it, and the body decides only what kind of failure: **a body that can be
read to its end and is an error document makes it the service's own error; in every other case it is
an unhealthy response** (`Response.health_of_fresh`). A body that cannot be read is missing from the
failure and does not become one of its own.

A body that is buffered is there for every later check, whatever has been read from the response in
between (`Response.outcome_healthy_run`). Without an entity there is nothing to read, and readings
leave the response as it was (`Response.Reading.core_visit_of_none`).
-/

set_option autoImplicit false

namespace OData

open OData.Text

/-! ## Without an entity -/

namespace Access

variable {α β : Type}

theorem on_bind_error {r r' : Response} {j j' : Journal} {x : Access α} {f : Failure}
    (h : on r j x = ((.error f, r'), j')) (g : α → Access β) :
    on r j (x >>= g) = ((.error f, r'), j') := by
  rw [on_bind, h]

variable {r : Response} (he : r.hasEntity = false)

include he

theorem on_entity_of_none (j : Journal) :
    on r j entity = ((.error ((Failure.unreadable (.noPayload r.protocol)).atRequest r.locus), r), j)
    := by
  unfold entity
  rw [on_get_bind, he]
  rfl

theorem on_document_of_none (j : Journal) : on r j document =
    ((.error ((Failure.unreadable (.noPayload r.protocol)).atRequest r.locus), r), j) :=
  on_bind_error (on_entity_of_none he j) _

theorem on_object_of_none (j : Journal) : on r j object =
    ((.error ((Failure.unreadable (.noPayload r.protocol)).atRequest r.locus), r), j) :=
  on_bind_error (on_document_of_none he j) _

theorem on_collection_of_none (j : Journal) : on r j collection =
    ((.error ((Failure.unreadable (.noPayload r.protocol)).atRequest r.locus), r), j) :=
  on_bind_error (on_document_of_none he j) _

/-- A failing status is a failure also where there is nothing to read. -/
theorem on_healthy_of_none (h : 400 ≤ r.status) (j : Journal) :
    on r j healthy = ((.error ((r.unhealthy none).atRequest r.locus), r), j) := by
  unfold healthy
  rw [on_get_bind, if_neg (Nat.not_lt.mpr h)]
  dsimp only
  rw [if_neg (by rw [he]; exact Bool.false_ne_true)]
  show on r j (fail (r.unhealthy none)) = _
  rw [on_fail, Failure.orAtRequest, unhealthy_locus, Option.none_or]
  rfl

end Access

theorem Body.Holds.accessed {content : List UInt8} {b : Body} (h : b.Holds content) :
    b.accessed.Holds content := by
  cases h with
  | buffered buffering => exact .buffered buffering
  | pending metered => exact .buffered true

namespace Response

namespace Reading

variable {ρ : Type} (schema : Json.Schema ρ)

/-- Without an entity, a reading at most looks at the body. -/
theorem core_visit_of_none {r : Response} (he : r.hasEntity = false) (d : Reading ρ)
    (j : Journal) : (Visit.on r j (d.visit schema)).1.2.core = r.core := by
  have hdocument := Access.on_document_of_none he j
  cases d with
  | bytes =>
    obtain ⟨n, -, hr, -⟩ := (Access.readsOnce_bytes (c := r.core)).on_after rfl j
    exact (congrArg core hr).trans rfl
  | text =>
    obtain ⟨n, -, hr, -⟩ := (Access.readsOnce_text (c := r.core)).on_after rfl j
    exact (congrArg core hr).trans rfl
  | object =>
    show (Access.on r j Access.object).1.2.core = _
    rw [Access.on_object_of_none he]
  | entityAs shape =>
    show (Access.on r j (Access.entityAs schema shape)).1.2.core = _
    unfold Access.entityAs
    rw [Access.on_bind_error (Access.on_object_of_none he j)]
  | collection =>
    show (Access.on r j Access.collection).1.2.core = _
    rw [Access.on_collection_of_none he]
  | listAs shape =>
    show (Access.on r j (Access.listAs schema shape)).1.2.core = _
    unfold Access.listAs
    rw [Access.on_bind_error (Access.on_collection_of_none he j)]
  | inlineCount =>
    show (Access.on r j Access.inlineCount).1.2.core = _
    unfold Access.inlineCount
    rw [Access.on_bind_error hdocument]
  | nextLink =>
    show (Access.on r j Access.nextLink).1.2.core = _
    unfold Access.nextLink
    rw [Access.on_bind_error hdocument]
  | primitiveAs shape =>
    show (Access.on r j (Access.primitiveAs schema shape)).1.2.core = _
    unfold Access.primitiveAs
    rw [Access.on_get_bind]
    dsimp only
    split
    · rw [Access.on_bind_error (Access.on_entity_of_none he j)]
    · rw [Access.on_bind_error hdocument]
  | deltaLink =>
    show (Access.on r j Access.deltaLink).1.2.core = _
    unfold Access.deltaLink
    rw [Access.on_get_bind]
    split
    · rfl
    · rw [Access.on_bind_error hdocument]
  | elements shape =>
    have hsource : Visit.on r j (Access.entity >>= fun _ => Access.source : Access Source).run =
        _ := Access.on_bind_error (Access.on_entity_of_none he j) _
    show (Visit.on r j (Visit.elements schema shape)).1.2.core = _
    unfold Visit.elements
    rw [Visit.on_bind, hsource]
    rfl
  | healthy =>
    show (Access.on r j Access.healthy).1.2.core = _
    by_cases h : r.status < 400
    · rw [Access.on_healthy_of_lt h]
    · rw [Access.on_healthy_of_none he (Nat.not_lt.mp h)]

end Reading

/-! ## Fresh responses -/

/-- Nothing has been read of the response, which came with this source, or without an entity. -/
structure Fresh (r : Response) (source : Option Source) : Prop where
  state : r.body.state = .pending source
  entity : r.hasEntity = source.isSome

theorem Fresh.holds {r : Response} {s : Source} (h : r.Fresh (some s))
    (hb : r.body.buffering = true) (hs : s.breaksOff = false) : r.body.Holds s.rest := by
  obtain ⟨rest, breaksOff, metered⟩ := s
  obtain rfl : breaksOff = false := hs
  have hbody : r.body = ⟨true, .pending (some ⟨rest, false, metered⟩)⟩ :=
    congrArg₂ Body.mk hb h.state
  rw [hbody]
  exact .pending metered

/-- A response is fresh when it arrives, and it can be settled then whether it is buffered. -/
theorem fresh_of (request : Option Request) (locus : Locus) (answer : Answer)
    (online buffering : Bool) :
    let r := Response.of request locus answer online
    ({ r with body := { r.body with buffering } } : Response).Fresh answer.body := ⟨rfl, rfl⟩

/-- The content of an entity that can be read to its end. -/
def contentOf : Option Source → Option (List UInt8)
  | some s => if s.breaksOff then none else some s.rest
  | none => none

theorem contentOf_eq_none_iff {source : Option Source} :
    contentOf source = none ↔ source = none ∨ ∃ s, source = some s ∧ s.breaksOff = true := by
  cases source with
  | none => exact ⟨fun _ => .inl rfl, fun _ => rfl⟩
  | some s => cases hs : s.breaksOff <;> simp [contentOf, hs]

/-- What a failing response is reported with, its content being this, if it could be read. -/
structure Reports (r : Response) (content : Option (List UInt8)) (f : Failure) : Prop where
  service : f.cause.kind = "ServiceError" ↔
    ∃ bytes e, content = some bytes ∧ ServiceError.parse? r.protocol bytes = some e
  otherwise : f.cause.kind ≠ "ServiceError" → f.cause.kind = "UnhealthyResponse"
  error : f.cause.serviceError? = content.bind (ServiceError.parse? r.protocol)
  status : f.cause.status? = some r.status
  body : f.cause.body? = content.map Utf8.toStringLossy
  request : f.locus = some r.locus

theorem reports_unhealthy (r : Response) (content : Option (List UInt8)) :
    r.Reports content ((r.unhealthy content).atRequest r.locus) := by
  unfold Response.unhealthy
  dsimp only
  cases he : content.bind (ServiceError.parse? r.protocol) with
  | some e =>
    have hsome : ∃ bytes e, content = some bytes ∧ ServiceError.parse? r.protocol bytes = some e :=
      (Option.bind_eq_some_iff.mp he).imp fun bytes h => ⟨e, h⟩
    exact ⟨⟨fun _ => hsome, fun _ => rfl⟩, fun h => absurd rfl h, he.symm, rfl, rfl, rfl⟩
  | none =>
    refine ⟨⟨?_, ?_⟩, fun _ => rfl, he.symm, rfl, rfl, rfl⟩
    · intro h
      exact absurd (show "UnhealthyResponse" = "ServiceError" from h) (by decide)
    · rintro ⟨bytes, e, rfl, hparse⟩
      exact absurd (he.symm.trans hparse) nofun

section

variable {r : Response} {source : Option Source} (h : r.Fresh source)

include h

/-- Reading all of a fresh response gives its content, if it has any. -/
theorem on_bytes_of_fresh (j : Journal) : ∃ o r' j',
    Access.on r j Access.bytes = ((o, r'), j') ∧ o.toOption = contentOf source ∧
      r'.core = r.core := by
  obtain ⟨request, locus, status, reason, headers, hasEntity, ⟨buffering, state⟩, online, handlers,
    closed⟩ := r
  obtain rfl : state = .pending source := h.state
  cases source with
  | none => exact ⟨_, _, _, rfl, rfl, rfl⟩
  | some s =>
    obtain ⟨rest, breaksOff, metered⟩ := s
    -- A stream that breaks off does so while it is buffered or while it is read.
    cases buffering with
    | true => cases breaksOff <;> exact ⟨_, _, _, rfl, rfl, rfl⟩
    | false => cases breaksOff <;> exact ⟨_, _, _, rfl, rfl, rfl⟩

theorem on_healthy_of_fresh (hstatus : 400 ≤ r.status) (j : Journal) : ∃ r' j',
    Access.on r j Access.healthy =
      ((.error ((r.unhealthy (contentOf source)).atRequest r.locus), r'), j') := by
  cases he : r.hasEntity with
  | true =>
    obtain ⟨o, r', j', hbytes, ho, hcore⟩ := on_bytes_of_fresh h j
    refine ⟨r', j', ?_⟩
    rw [← ho]
    exact Access.on_healthy_of_bytes hstatus he hbytes hcore
  | false =>
    obtain rfl : source = none := by
      rw [← Option.not_isSome_iff_eq_none, ← h.entity, he]
      exact Bool.false_ne_true
    exact ⟨r, j, Access.on_healthy_of_none he hstatus j⟩

end

/-! ## Later checks -/

section

variable {ρ : Type} (schema : Json.Schema ρ)

theorem core_run_readings (x : Stage) (ds : List (Reading ρ)) :
    (run schema (ds.map .read) x).1.core = x.1.core := by
  cases he : x.1.hasEntity with
  | true => exact core_run schema he (ds.map .read)
  | false =>
    induction ds generalizing x with
    | nil => rfl
    | cons d ds ih =>
      have hstep : ((Step.read d).after schema x).1.core = x.1.core :=
        d.core_visit_of_none schema he x.2
      refine (ih ((Step.read d).after schema x) ?_).trans hstep
      exact (congrArg hasEntity hstep).trans he

/-- Content that is there for any number of readings is so after any of them. -/
theorem holds_run_readings {content : List UInt8} {x : Stage} (he : x.1.hasEntity = true)
    (h : x.1.body.Holds content) (ds : List (Reading ρ)) :
    (run schema (ds.map .read) x).1.body.Holds content := by
  induction ds generalizing x with
  | nil => exact h
  | cons d ds ih =>
    obtain ⟨n, -, hd, -⟩ := d.on_visit schema he x.2
    have hstep : ((Step.read d).after schema x).1 =
      if d.accesses x.1 then x.1.accessed else x.1 := hd
    refine ih ?_ ?_
    · rw [hstep]
      split
      · exact he
      · exact he
    · rw [hstep]
      split
      · exact h.accessed
      · exact h

theorem outcome_healthy_of_none {r : Response} (he : r.hasEntity = false) (j : Journal) :
    Reading.healthy.outcome schema (r, j) =
      if r.core.status < 400 then .ok ()
      else .error ((r.core.unhealthy none).atRequest r.core.locus) := by
  show (Access.on r j Access.healthy).1.1 = _
  by_cases h : r.status < 400
  · rw [Access.on_healthy_of_lt h]
    exact (if_pos h).symm
  · rw [Access.on_healthy_of_none he (Nat.not_lt.mp h)]
    exact (if_neg h).symm

/-- **With its content in memory or about to be, or without any, a response is as healthy as it was,
whatever has been read from it.** -/
theorem outcome_healthy_run {r : Response} {source : Option Source} (h : r.Fresh source)
    (hb : r.body.buffering = true) (hs : ∀ s ∈ source, s.breaksOff = false) (j : Journal)
    (ds : List (Reading ρ)) :
    Reading.healthy.outcome schema (run schema (ds.map .read) (r, j)) =
      Reading.healthy.outcome schema (r, j) := by
  have hcore := core_run_readings schema (r, j) ds
  cases source with
  | some s =>
    have he : r.hasEntity = true := h.entity
    have hholds : r.body.Holds s.rest := h.holds hb (hs s rfl)
    have hafter := holds_run_readings schema (x := (r, j)) he hholds ds
    exact (Reading.healthy.outcome_of_gives schema he hcore hafter.gives _).trans
      (Reading.healthy.outcome_of_gives schema he rfl hholds.gives j).symm
  | none =>
    have he : r.core.hasEntity = false := h.entity
    rw [outcome_healthy_of_none schema (r := r) he, ← hcore]
    refine outcome_healthy_of_none schema ?_ _
    exact (congrArg hasEntity hcore).trans he

/-- **The health of a fresh response.** A status below 400 is healthy and nothing is read. Any other
is reported with the content, if all of it could be read, and with nothing in its place if not. Once
content is buffered, later checks come to the same. -/
theorem health_of_fresh {r : Response} {source : Option Source} (h : r.Fresh source)
    (j : Journal) :
    ((Access.on r j Access.healthy).1.1 = .ok () ↔ r.status < 400) ∧
    (r.status < 400 → Access.on r j Access.healthy = ((.ok (), r), j)) ∧
    (400 ≤ r.status → ∃ f, (Access.on r j Access.healthy).1.1 = .error f ∧
      r.Reports (contentOf source) f ∧
      (f.cause.body? = none ↔ source = none ∨ ∃ s, source = some s ∧ s.breaksOff = true)) ∧
    (r.body.buffering = true → (∀ s ∈ source, s.breaksOff = false) →
      ∀ ds : List (Reading ρ), Reading.healthy.outcome schema (run schema (ds.map .read) (r, j)) =
        Reading.healthy.outcome schema (r, j)) := by
  have hfailing : 400 ≤ r.status → (Access.on r j Access.healthy).1.1 =
      .error ((r.unhealthy (contentOf source)).atRequest r.locus) := by
    intro hstatus
    obtain ⟨r', j', hrun⟩ := on_healthy_of_fresh h hstatus j
    rw [hrun]
  refine ⟨⟨?_, ?_⟩, ?_, ?_, ?_⟩
  · intro hok
    by_contra hstatus
    have herror := hfailing (Nat.not_lt.mp hstatus)
    rw [hok] at herror
    cases herror
  · intro hstatus
    rw [Access.on_healthy_of_lt hstatus]
  · intro hstatus
    exact Access.on_healthy_of_lt hstatus j
  · intro hstatus
    have hreports := reports_unhealthy r (contentOf source)
    refine ⟨_, hfailing hstatus, hreports, ?_⟩
    rw [hreports.body, Option.map_eq_none_iff]
    exact contentOf_eq_none_iff
  · intro hb hs ds
    exact outcome_healthy_run schema h hb hs j ds

end

def rejection : List UInt8 := Text.Utf8.ofString
  "\x7b\"error\":\x7b\"code\":\"Gone\",\"message\":\"No such person\"\x7d\x7d"

def rejected (buffering : Bool) (body : Option Source) : Response :=
  let r := Response.of none ⟨.get, "/svc/People", .v4, none⟩ ⟨404, "Not Found", .empty, body⟩ false
  { r with body := { r.body with buffering } }

/-- A rejection is the error of the service, also after something has been looked for in it; one that
breaks off is reported without a body. -/
theorem health_of_fresh_rejected :
    (∃ f, (Access.on (rejected true (some ⟨rejection, false, true⟩)) .empty Access.healthy).1.1 =
        .error f ∧ f.cause.serviceError?.map (·.code) = some "Gone") ∧
    Reading.healthy.outcome Json.noRecords (run Json.noRecords ([.collection, .text].map .read)
        (rejected true (some ⟨rejection, false, true⟩), .empty)) =
      Reading.healthy.outcome Json.noRecords
        (rejected true (some ⟨rejection, false, true⟩), .empty) ∧
    ∃ f, (Access.on (rejected false (some ⟨rejection.take 9, true, true⟩)) .empty
        Access.healthy).1.1 = .error f ∧ f.cause.body? = none ∧ f.cause.status? = some 404 := by
  have hwhole : (rejected true (some ⟨rejection, false, true⟩)).Fresh _ := fresh_of _ _ _ _ _
  have hbroken : (rejected false (some ⟨rejection.take 9, true, true⟩)).Fresh _ :=
    fresh_of _ _ _ _ _
  obtain ⟨-, -, hservice, hlater⟩ := health_of_fresh Json.noRecords hwhole .empty
  obtain ⟨-, -, hnothing, -⟩ := health_of_fresh Json.noRecords hbroken .empty
  refine ⟨?_, ?_, ?_⟩
  · obtain ⟨f, hf, hreports, -⟩ := hservice (by decide)
    have hcode : (ServiceError.parse? .v4 rejection).map (·.code) = some "Gone" := by
      decide +kernel
    refine ⟨f, hf, ?_⟩
    rw [hreports.error]
    show ((some rejection).bind (ServiceError.parse? .v4)).map (·.code) = some "Gone"
    rw [Option.bind_some]
    exact hcode
  · refine hlater rfl ?_ [.collection, .text]
    intro s hs
    cases hs
    rfl
  · obtain ⟨f, hf, hreports, hbody⟩ := hnothing (by decide)
    exact ⟨f, hf, hbody.mpr (.inr ⟨_, rfl, rfl⟩), hreports.status⟩

end Response

end OData
