import Mathlib.Tactic.Choose
import OData.Proofs.Response.Access
import OData.Response.Decoding

/-!
# Reading a body once

Whatever is read from a response comes from one access to its body. `Body.offer` says what that
access gives, `Body.accessed` what it leaves. **A visit that reads once comes to the same whenever
the same content is offered** (`ReadsOnce.on_eq`): it does not matter whether the content comes off
the wire or from memory, nor what has happened to the response before. Where there is no content, it
fails as the body refuses (`ReadsOnce.on_refused`), and it never pulls more than there is
(`ReadsOnce.on_after`).

Reading once is closed under going on with what depends on nothing but the response as it came
(`Still`), and that is how each way of decoding is put together.
-/

set_option autoImplicit false

namespace OData

/-! ## What a body offers -/

/-- Why there is nothing to read, as a failure. -/
def Body.Refusal.failure : Body.Refusal → Failure
  | noEntity => .unreadable .noContent
  | alreadyConsumed => .unreadable .alreadyConsumed
  | broken => .connection .buffering .broken

/-- The stream as one in memory. -/
def Source.stored (s : Source) : Source := { s with metered := false }

theorem Source.traffic_mono (s : Source) {m n : Nat} (h : m ≤ n) : s.traffic m ≤ s.traffic n := by
  unfold traffic
  split
  · exact h
  · exact Nat.le_refl 0

namespace Body

/-- What the next access to the body gives. -/
def offer (b : Body) : Except Refusal Source :=
  match b.state with
  | .pending none => .error .noEntity
  | .pending (some s) =>
    if b.buffering then if s.breaksOff then .error .broken else .ok (.ofBytes s.rest) else .ok s
  | .buffered bytes => .ok (.ofBytes bytes)
  | .consumed => .error .alreadyConsumed

/-- The body after an access. -/
def accessed (b : Body) : Body :=
  match b.state with
  | .pending (some s) =>
    { b with state := if b.buffering && !s.breaksOff then .buffered s.rest else .consumed }
  | _ => b

/-- How much an access pulls off the wire by itself: all of it, to buffer it, or nothing. -/
def pulled (b : Body) : Nat :=
  match b.state with
  | .pending (some s) => if b.buffering then s.traffic s.rest.length else 0
  | _ => 0

/-- How much there is on the wire for the body. -/
def onWire (b : Body) : Nat :=
  match b.state with
  | .pending (some s) => s.traffic s.rest.length
  | _ => 0

theorem access_eq (b : Body) (j : Journal) :
    b.access j = (b.offer, b.accessed, { j with traffic := j.traffic + b.pulled }) := by
  obtain ⟨buffering, state⟩ := b
  unfold access offer accessed pulled
  cases state with
  | pending source =>
    cases source with
    | none => rfl
    | some s =>
      obtain ⟨rest, breaksOff, metered⟩ := s
      cases buffering with
      | false => rfl
      | true => cases breaksOff <;> rfl
  | buffered bytes => rfl
  | consumed => rfl

/-- What an access pulls and what it hands out are together what there is on the wire. -/
theorem pulled_add_traffic {b : Body} {s : Source} (h : b.offer = .ok s) :
    b.pulled + s.traffic s.rest.length = b.onWire := by
  obtain ⟨buffering, state⟩ := b
  unfold pulled onWire
  cases state with
  | pending source =>
    cases source with
    | none => cases h
    | some s =>
      obtain ⟨rest, breaksOff, metered⟩ := s
      cases buffering with
      | false =>
        cases h
        exact Nat.zero_add _
      | true =>
        cases breaksOff with
        | true => cases h
        | false =>
          cases h
          rfl
  | buffered bytes =>
    cases h
    rfl
  | consumed => cases h

/-- A body that is buffered offers the same again. -/
theorem offer_accessed_eq_ok {b : Body} (hb : b.buffering = true) {s : Source} :
    b.accessed.offer = .ok s ↔ b.offer = .ok s := by
  obtain ⟨buffering, state⟩ := b
  obtain rfl : buffering = true := hb
  cases state with
  | pending source =>
    cases source with
    | none => exact Iff.rfl
    | some s' =>
      obtain ⟨rest, breaksOff, metered⟩ := s'
      cases breaksOff with
      | true =>
        constructor
        · intro h
          cases h
        · intro h
          cases h
      | false => exact Iff.rfl
  | buffered bytes => exact Iff.rfl
  | consumed => exact Iff.rfl

theorem pulled_le (b : Body) : b.pulled ≤ b.onWire := by
  unfold pulled onWire
  split
  · split
    · exact Nat.le_refl _
    · exact Nat.zero_le _
  · exact Nat.le_refl 0

/-- The body gives this content at its next access, whether or not it does so again. -/
def Gives (content : List UInt8) (b : Body) : Prop :=
  ∃ metered, b.offer = .ok ⟨content, false, metered⟩

theorem Holds.gives {content : List UInt8} {b : Body} (h : b.Holds content) : b.Gives content := by
  cases h with
  | buffered buffering => exact ⟨false, rfl⟩
  | pending metered => exact ⟨false, rfl⟩

theorem gives_pending (buffering metered : Bool) (content : List UInt8) :
    (⟨buffering, .pending (some ⟨content, false, metered⟩)⟩ : Body).Gives content := by
  cases buffering with
  | false => exact ⟨metered, rfl⟩
  | true => exact ⟨false, rfl⟩

end Body

namespace Response

/-- The response as it came, without what may change in it: its body and what belongs to closing. -/
def core (r : Response) : Response :=
  { r with body := ⟨true, .consumed⟩, handlers := [], closed := false }

/-- The response after an access to its body. -/
def accessed (r : Response) : Response := { r with body := r.body.accessed }

end Response

/-- What a visit gives on a response, the response afterwards, and the journal. -/
def Visit.on {α : Type} (r : Response) (j : Journal) (v : Visit α) : (α × Response) × Journal :=
  (v.run r).run j

theorem Visit.on_bind {α β : Type} (r : Response) (j : Journal) (v : Visit α) (g : α → Visit β) :
    on r j (v >>= g) =
      match on r j v with
      | ((a, r'), j') => on r' j' (g a) := rfl

/-- The journal after so much has been pulled off the wire. -/
def Journal.pulling (j : Journal) (n : Nat) : Journal := { j with traffic := j.traffic + n }

namespace Access

variable {α β : Type}

/-- An access to the body gives what the body offers. -/
theorem on_source (r : Response) (j : Journal) :
    on r j source =
      ((match r.body.offer with
        | .ok s => .ok s
        | .error e => .error (e.failure.atRequest r.locus), r.accessed),
        j.pulling r.body.pulled) := by
  unfold source
  rw [on_get_bind, on_getThe_bind, Body.access_eq]
  cases r.body.offer with
  | ok s => rfl
  | error e => cases e <;> rfl

/-- What the body gives is what is read from it. -/
theorem on_bytes_of_gives {r : Response} {content : List UInt8} (h : r.body.Gives content)
    (j : Journal) : (on r j bytes).1.1 = .ok content := by
  obtain ⟨metered, h⟩ := h
  unfold bytes
  rw [on_bind, on_source, h]
  rfl

/-! ## Accesses that leave the body alone -/

/-- Nothing is changed on a response that came as `c`, and what comes of it is always the same. -/
def Still (c : Response) (x : Access α) : Prop :=
  ∃ result : Except Failure α, ∀ r j, r.core = c → on r j x = ((result, r), j)

variable {c : Response}

theorem still_pure (a : α) : Still c (pure a : Access α) := ⟨.ok a, fun _ _ _ => rfl⟩

theorem still_fail (f : Failure) : Still c (fail f : Access α) := by
  refine ⟨.error (f.orAtRequest c.locus), ?_⟩
  intro r j hr
  rw [on_fail, ← hr]
  rfl

theorem still_get {g : Response → Access α} (hg : ∀ r, g r = g r.core) (h : Still c (g c)) :
    Still c (get >>= g) := by
  obtain ⟨result, hresult⟩ := h
  refine ⟨result, ?_⟩
  intro r j hr
  rw [on_get_bind, hg, hr, hresult r j hr]

theorem Still.bind {x : Access α} {g : α → Access β} (hx : Still c x) (hg : ∀ a, Still c (g a)) :
    Still c (x >>= g) := by
  obtain ⟨result, hx⟩ := hx
  cases result with
  | error f =>
    refine ⟨.error f, ?_⟩
    intro r j hr
    rw [on_bind, hx r j hr]
  | ok a =>
    obtain ⟨result, hresult⟩ := hg a
    refine ⟨result, ?_⟩
    intro r j hr
    rw [on_bind_ok (hx r j hr), hresult r j hr]

theorem still_wrongShape : Still c (wrongShape : Access α) :=
  still_get (fun _ => rfl) (still_fail _)

theorem still_invalidJson : Still c (invalidJson : Access α) :=
  still_get (fun _ => rfl) (still_fail _)

end Access

/-! ## Visits that read the body once -/

/-- The body of a response that came as `c` is read once. What comes of it depends on the content
alone, or is `refused` if there is none; and no more is taken than there is. -/
def Visit.ReadsOnce {β : Type} (c : Response) (refused : Failure → β) (v : Visit β) : Prop :=
  ∃ (taken : Source → Nat) (result : Source → β), (∀ s, taken s ≤ s.rest.length) ∧
    ∀ r j, r.core = c → on r j v =
      match Access.on r j Access.source with
      | ((.ok s, r'), j') => ((result s.stored, r'), j'.pull s (taken s.stored))
      | ((.error f, r'), j') => ((refused f, r'), j')

namespace Visit.ReadsOnce

variable {β : Type} {c : Response} {refused : Failure → β} {v : Visit β}

/-- What comes of it is decided by what the body offers. -/
theorem on_congr (hv : ReadsOnce c refused v) (r₁ r₂ : Response) (hr₁ : r₁.core = c)
    (hr₂ : r₂.core = c) (h : r₁.body.offer = r₂.body.offer) (j₁ j₂ : Journal) :
    (on r₁ j₁ v).1.1 = (on r₂ j₂ v).1.1 := by
  obtain ⟨taken, result, -, hv⟩ := hv
  have hlocus : r₁.core.locus = r₂.core.locus := by rw [hr₁, hr₂]
  change r₁.locus = r₂.locus at hlocus
  rw [hv r₁ j₁ hr₁, hv r₂ j₂ hr₂, Access.on_source, Access.on_source, h, hlocus]
  cases r₂.body.offer with
  | error e => rfl
  | ok s => rfl

/-- **The same content comes to the same**, wherever it is read from and whatever became of the rest
of the response. -/
theorem on_eq (hv : ReadsOnce c refused v) {r₁ r₂ : Response} (hr₁ : r₁.core = c)
    (hr₂ : r₂.core = c) {content : List UInt8} (h₁ : r₁.body.Gives content)
    (h₂ : r₂.body.Gives content) (j₁ j₂ : Journal) : (on r₁ j₁ v).1.1 = (on r₂ j₂ v).1.1 := by
  obtain ⟨taken, result, -, hv⟩ := hv
  obtain ⟨m₁, h₁⟩ := h₁
  obtain ⟨m₂, h₂⟩ := h₂
  rw [hv r₁ j₁ hr₁, hv r₂ j₂ hr₂, Access.on_source, Access.on_source, h₁, h₂]
  rfl

/-- Where there is no content, it fails as the body refuses. -/
theorem on_refused (hv : ReadsOnce c refused v) {r : Response} (hr : r.core = c)
    {e : Body.Refusal} (h : r.body.offer = .error e) (j : Journal) :
    (on r j v).1.1 = refused (e.failure.atRequest c.locus) := by
  obtain ⟨taken, result, -, hv⟩ := hv
  rw [hv r j hr, Access.on_source, h, ← hr]
  rfl

/-- Afterwards the body has been accessed, and no more has been pulled than there was. -/
theorem on_after (hv : ReadsOnce c refused v) {r : Response} (hr : r.core = c) (j : Journal) :
    ∃ n ≤ r.body.onWire, (on r j v).1.2 = r.accessed ∧ (on r j v).2 = j.pulling n := by
  obtain ⟨taken, result, htaken, hv⟩ := hv
  rw [hv r j hr, Access.on_source]
  cases ho : r.body.offer with
  | error e => exact ⟨r.body.pulled, r.body.pulled_le, rfl, rfl⟩
  | ok s =>
    refine ⟨r.body.pulled + s.traffic (taken s.stored), ?_, rfl, ?_⟩
    · rw [← Body.pulled_add_traffic ho]
      exact Nat.add_le_add_left (s.traffic_mono (htaken s.stored)) _
    · simp only [Journal.pulling, Journal.pull, Nat.add_assoc]

end Visit.ReadsOnce

namespace Access

variable {α β : Type} {c : Response}

abbrev ReadsOnce (c : Response) (x : Access α) : Prop := Visit.ReadsOnce c Except.error x.run

theorem on_entity (he : c.hasEntity = true) {r : Response} (hr : r.core = c) (j : Journal) :
    on r j entity = ((.ok ⟨⟩, r), j) := by
  have hentity : r.hasEntity = true := by
    rw [← hr] at he
    exact he
  unfold entity
  rw [on_get_bind, if_pos hentity]
  rfl

namespace ReadsOnce

/-- A stream is read, so much of it as is looked at. -/
theorem of_source (taken : Source → Nat) {g : Source → Access α}
    (htaken : ∀ s, taken s = taken s.stored) (hle : ∀ s, taken s ≤ s.rest.length)
    (hg : ∀ s, g s = g s.stored) (h : ∀ s, Still c (g s)) :
    ReadsOnce c (source >>= fun s => pull s (taken s) >>= fun _ => g s) := by
  choose result hresult using h
  refine ⟨taken, result, hle, ?_⟩
  intro r j hr
  show on r j (source >>= fun s => pull s (taken s) >>= fun _ => g s) = _
  rw [on_bind, on_source]
  cases r.body.offer with
  | error e => rfl
  | ok s =>
    dsimp only
    rw [on_bind_ok (on_pull _ _ _ _), hg, hresult _ r.accessed _ hr, ← htaken]

theorem bind {x : Access α} {g : α → Access β} (hx : ReadsOnce c x) (hg : ∀ a, Still c (g a)) :
    ReadsOnce c (x >>= g) := by
  obtain ⟨taken, result, htaken, hx⟩ := hx
  choose next hnext using hg
  refine ⟨taken, fun s => result s >>= next, htaken, ?_⟩
  intro r j hr
  have hrun := hx r j hr
  change on r j x = _ at hrun
  show on r j (x >>= g) = _
  rw [on_bind, hrun, on_source]
  cases r.body.offer with
  | error e => rfl
  | ok s =>
    dsimp only
    cases result s.stored with
    | error f => rfl
    | ok a => exact hnext a r.accessed _ hr

theorem of_get {g : Response → Access α} (hg : ∀ r, g r = g r.core) (h : ReadsOnce c (g c)) :
    ReadsOnce c (get >>= g) := by
  obtain ⟨taken, result, htaken, hresult⟩ := h
  refine ⟨taken, result, htaken, ?_⟩
  intro r j hr
  show on r j (get >>= g) = _
  rw [on_get_bind, hg, hr]
  exact hresult r j hr

theorem of_entity (he : c.hasEntity = true) {x : Access α} (hx : ReadsOnce c x) :
    ReadsOnce c (entity >>= fun _ => x) := by
  obtain ⟨taken, result, htaken, hx⟩ := hx
  refine ⟨taken, result, htaken, ?_⟩
  intro r j hr
  show on r j (entity >>= fun _ => x) = _
  rw [on_bind_ok (on_entity he hr j)]
  exact hx r j hr

end ReadsOnce

/-! ## Ways of reading -/

section

variable {ρ : Type} (schema : Json.Schema ρ) (shape : Json.Shape ρ)

/-- What is done with a primitive value once it has been found. -/
theorem still_fitPrimitive (v : Json) :
    Still c (if v.isNull then fail (.unreadable .nullPrimitive)
      else match Json.fit? schema shape v with
        | some v => pure v
        | none => fail (.unreadable .unfitPrimitive) : Access Json) := by
  split
  · exact still_fail _
  · split
    · exact still_pure _
    · exact still_fail _

/-- What becomes of the number of the elements once they have been handed out. -/
theorem still_count (reading : Json.Reading) :
    Still c (match reading.outcome with
      | some (.count (some n)) => return n
      | some _ => wrongShape
      | none => invalidJson : Access Nat) := by
  split
  · exact still_pure _
  · exact still_wrongShape
  · exact still_invalidJson

theorem readsOnce_bytes : ReadsOnce c bytes := by
  refine ReadsOnce.of_source (fun s => s.rest.length) (fun _ => rfl)
    (fun _ => Nat.le_refl _) (fun _ => rfl) ?_
  intro s
  split
  · exact still_fail _
  · exact still_pure _

theorem readsOnce_text : ReadsOnce c text := readsOnce_bytes.bind fun _ => still_pure _

variable (he : c.hasEntity = true)

include he

theorem readsOnce_document : ReadsOnce c document := by
  refine ReadsOnce.of_entity he (ReadsOnce.of_source (fun s => s.rest.length -
    (Json.readFrom Json.noRecords (.build .any) s.rest s.breaksOff).unread.length)
    (fun _ => rfl) (fun _ => Nat.sub_le _ _) (fun _ => rfl) ?_)
  intro s
  split
  · exact still_pure _
  · exact still_invalidJson

theorem readsOnce_object : ReadsOnce c object := by
  refine (readsOnce_document he).bind ?_
  intro root
  refine still_get (fun _ => rfl) ?_
  split
  · split
    · exact still_pure _
    · exact still_wrongShape
  · exact still_wrongShape

theorem readsOnce_entityAs : ReadsOnce c (entityAs schema shape) := by
  refine (readsOnce_object he).bind ?_
  intro v
  split
  · exact still_pure _
  · exact still_fail _

theorem readsOnce_primitiveAs : ReadsOnce c (primitiveAs schema shape) := by
  have hfit := still_fitPrimitive (c := c) schema shape
  refine ReadsOnce.of_get (fun _ => rfl) ?_
  dsimp only
  split
  · exact .of_entity he (readsOnce_text.bind fun s => (still_pure _).bind hfit)
  · refine (readsOnce_document he).bind ?_
    intro root
    split
    · exact (still_pure _).bind hfit
    · exact still_wrongShape.bind hfit

theorem readsOnce_collection : ReadsOnce c collection := by
  refine (readsOnce_document he).bind ?_
  intro root
  refine still_get (fun _ => rfl) ?_
  split
  · exact still_pure _
  · exact still_wrongShape

theorem readsOnce_listAs : ReadsOnce c (listAs schema shape) := by
  refine (readsOnce_collection he).bind ?_
  intro items
  split
  · exact still_pure _
  · exact still_get (fun _ => rfl) (still_fail _)

theorem readsOnce_inlineCount : ReadsOnce c inlineCount := by
  refine (readsOnce_document he).bind ?_
  intro root
  refine still_get (fun _ => rfl) ?_
  dsimp only
  split
  · exact still_pure _
  · exact still_fail _

theorem readsOnce_nextLink : ReadsOnce c nextLink :=
  (readsOnce_document he).bind fun _ => still_get (fun _ => rfl) (still_pure _)

/-- Only where the protocol has such links is the body read for one. -/
theorem readsOnce_deltaLink (h : c.protocol.deltaLinkPlace?.isSome) : ReadsOnce c deltaLink := by
  refine ReadsOnce.of_get (fun _ => rfl) ?_
  split
  · next hnone =>
    rw [hnone] at h
    cases h
  · exact (readsOnce_document he).bind fun _ => still_pure _

theorem readsOnce_elements :
    Visit.ReadsOnce c (fun f => ([], .error f)) (Visit.elements schema shape) := by
  choose count hcount using still_count (c := c)
  let reading (s : Source) : Json.Reading :=
    Json.readFrom schema (.descend c.protocol.collectionPlace shape) s.rest s.breaksOff
  refine ⟨fun s => s.rest.length - (reading s).unread.length,
    fun s => ((reading s).handed, count (reading s)), fun s => Nat.sub_le _ _, ?_⟩
  intro r j hr
  have hsource : Visit.on r j (entity >>= fun _ => source : Access Source).run =
      on r j source := on_bind_ok (on_entity he hr j) _
  unfold Visit.elements
  rw [Visit.on_bind, hsource, on_source]
  cases r.body.offer with
  | error e => rfl
  | ok s =>
    -- The elements have been handed out, whatever becomes of their number.
    subst hr
    have hrun := hcount (reading s) r.accessed
      ((j.pulling r.body.pulled).pull s (s.rest.length - (reading s).unread.length)) rfl
    change Visit.on r.accessed _ (ExceptT.run _ >>= fun n => pure ((reading s).handed, n)) = _
    rw [Visit.on_bind]
    exact congrArg (fun o : (Except Failure Nat × Response) × Journal =>
      ((((reading s).handed, o.1.1), o.1.2), o.2)) hrun

end

/-! ## Health -/

/-- A failing status is a failure with what could be read of the body. -/
theorem on_healthy_of_bytes {r r' : Response} (h : 400 ≤ r.status) (he : r.hasEntity = true)
    {j j' : Journal} {o : Except Failure (List UInt8)} (hb : on r j bytes = ((o, r'), j'))
    (hr : r'.core = r.core) :
    on r j healthy = ((.error ((r.unhealthy o.toOption).atRequest r.locus), r'), j') := by
  have hlocus : r'.core.locus = r.core.locus := by rw [hr]
  change r'.locus = r.locus at hlocus
  have hfail : on r' j' (fail (r.unhealthy o.toOption) : Access Unit) =
      ((.error ((r.unhealthy o.toOption).atRequest r.locus), r'), j') := by
    rw [on_fail, Failure.orAtRequest, unhealthy_locus, Option.none_or, hlocus]
    rfl
  unfold healthy
  rw [on_get_bind, if_neg (Nat.not_lt.mpr h)]
  dsimp only
  rw [if_pos he, on_bind, on_tryCatch, on_bind, hb]
  cases o with
  | error f => exact hfail
  | ok content => exact hfail

/-- The health check of any response: its status says what comes of it, whatever the outside has seen
before, and content is pulled at most. -/
theorem on_healthy_of_failing {r : Response} (h : 400 ≤ r.status) :
    ∃ body r', ∀ j, ∃ k, on r j healthy =
      ((.error ((r.unhealthy body).atRequest r.locus), r'), j.pulling k) := by
  by_cases he : r.hasEntity = true
  · refine ⟨(on r .empty bytes).1.1.toOption, r.accessed, ?_⟩
    intro j
    obtain ⟨k, -, hr, hj⟩ := (readsOnce_bytes (c := r.core)).on_after rfl j
    have hsame := (readsOnce_bytes (c := r.core)).on_congr r r rfl rfl rfl j .empty
    change (on r j bytes).1.2 = _ at hr
    change (on r j bytes).2 = _ at hj
    change (on r j bytes).1.1 = (on r .empty bytes).1.1 at hsame
    have hb : on r j bytes = (((on r .empty bytes).1.1, r.accessed), j.pulling k) := by
      rw [← hr, ← hj, ← hsame]
    exact ⟨k, on_healthy_of_bytes h he hb rfl⟩
  · refine ⟨none, r, ?_⟩
    intro j
    refine ⟨0, ?_⟩
    unfold healthy
    rw [on_get_bind, if_neg (Nat.not_lt.mpr h)]
    dsimp only
    rw [if_neg he]
    show on r j (fail (r.unhealthy none)) = _
    rw [on_fail, Failure.orAtRequest, unhealthy_locus, Option.none_or]
    rfl

/-- The check of a failing status reads the body, and is a failure also without one. -/
theorem readsOnce_healthy (he : c.hasEntity = true) (h : 400 ≤ c.status) :
    Visit.ReadsOnce c (fun _ => .error ((c.unhealthy none).atRequest c.locus)) healthy.run := by
  obtain ⟨taken, result, htaken, hbytes⟩ := readsOnce_bytes (c := c)
  refine ⟨taken, fun s => .error ((c.unhealthy (result s).toOption).atRequest c.locus), htaken, ?_⟩
  intro r j hr
  have hrun : on r j bytes = _ := hbytes r j hr
  subst hr
  show on r j healthy = _
  rw [on_source] at hrun ⊢
  cases ho : r.body.offer with
  | error e =>
    rw [ho] at hrun
    exact on_healthy_of_bytes (r := r) h he hrun rfl
  | ok s =>
    rw [ho] at hrun
    exact on_healthy_of_bytes (r := r) h he hrun rfl

end Access

end OData
