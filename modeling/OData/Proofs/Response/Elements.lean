import OData.Proofs.Json.Handed
import OData.Proofs.Response.Steps

/-!
# Elements one by one

What handing out the elements of a response comes to, in one equation for each thing that may happen
to its body (`on_elements_of_offer`, `on_elements_of_refusal`, `on_elements_without_entity`).

The elements are handed out before it is known how the stream ends, so some may have been handed out
when it breaks off. **They are the first of those in the whole stream, and the reading fails**
(`elements_of_broken`), wherever the stream is cut: between two elements, inside one, or in the
middle of a number that might have gone on.
-/

set_option autoImplicit false

namespace OData

namespace Visit

variable {ρ : Type} (schema : Json.Schema ρ) (shape : Json.Shape ρ)

/-- The number of the elements that a descent has come to, or the reason that there is none. -/
def numberOf (r : Response) : Option Json.Item → Except Failure Nat
  | some (.count (some n)) => .ok n
  | some _ => .error ((Failure.unreadable (.wrongShape r.protocol)).atRequest r.locus)
  | none => .error ((Failure.unreadable (.invalidJson r.protocol)).atRequest r.locus)

/-- What is handed out of a stream, and the number of the elements. -/
def elementsOf (r : Response) (s : Source) : List Json × Except Failure Nat :=
  let reading := Json.readFrom schema (.descend r.protocol.collectionPlace shape) s.rest s.breaksOff
  (reading.handed, numberOf r reading.outcome)

variable {r : Response}

theorem on_number (r : Response) (j : Journal) (outcome : Option Json.Item) :
    (Access.on r j (match outcome with
      | some (.count (some n)) => return n
      | some _ => Access.wrongShape
      | none => Access.invalidJson)).1.1 = numberOf r outcome := by
  rcases outcome with _ | _ | _ | _ | n
  all_goals rfl

/-- A stream is handed out, as far as its elements go. -/
theorem on_elements_of_offer (he : r.hasEntity = true) {s : Source} (ho : r.body.offer = .ok s)
    (j : Journal) : (on r j (elements schema shape)).1.1 = elementsOf schema shape r s := by
  have hsource : on r j (Access.entity >>= fun _ => Access.source : Access Source).run =
      ((.ok s, r.accessed), j.pulling r.body.pulled) := by
    refine (Access.on_bind_ok (Access.on_entity (c := r.core) he rfl j) _).trans ?_
    rw [Access.on_source, ho]
  unfold elements
  rw [Visit.on_bind, hsource]
  exact congrArg (Prod.mk _) (on_number r.accessed _ _)

/-- Where there is nothing to read, nothing is handed out. -/
theorem on_elements_of_refusal (he : r.hasEntity = true) {e : Body.Refusal}
    (ho : r.body.offer = .error e) (j : Journal) :
    (on r j (elements schema shape)).1.1 = ([], .error (e.failure.atRequest r.locus)) :=
  (Access.readsOnce_elements (c := r.core) schema shape he).on_refused rfl ho j

theorem on_elements_without_entity (he : r.hasEntity = false) (j : Journal) :
    (on r j (elements schema shape)).1.1 =
      ([], .error ((Failure.unreadable (.noPayload r.protocol)).atRequest r.locus)) := by
  have hsource : on r j (Access.entity >>= fun _ => Access.source : Access Source).run =
      ((.error ((Failure.unreadable (.noPayload r.protocol)).atRequest r.locus), r), j) := by
    show Access.on r j (Access.entity >>= fun _ => Access.source) = _
    unfold Access.entity
    rw [Access.on_bind, Access.on_get_bind, he]
    rfl
  unfold elements
  rw [Visit.on_bind, hsource]
  rfl

end Visit

/-- A body that breaks off is refused if it has to be buffered, and handed out as it is otherwise. -/
theorem Body.offer_of_broken {b : Body} {s : Source} (h : b.state = .pending (some s))
    (hs : s.breaksOff = true) :
    b.offer = .error .broken ∨ b.offer = .ok s := by
  unfold offer
  rw [h]
  dsimp only
  rw [hs]
  split
  · exact .inl rfl
  · exact .inr rfl

namespace Response

open Visit

/-- **A stream that breaks off gives no wrong element.** Beside the same response with the whole
stream, the elements handed out are the first of those that the whole stream gives, and the reading
fails as one of the request. It does not matter what shape the elements are read in, nor whether
either body is buffered. -/
theorem elements_of_broken {ρ : Type} (schema : Json.Schema ρ) (shape : Json.Shape ρ)
    {r₁ r₂ : Response} (hr : r₂.core = r₁.core) {s₁ s₂ : Source}
    (h₁ : r₁.body.state = .pending (some s₁)) (hwhole : s₁.breaksOff = false)
    (h₂ : r₂.body.state = .pending (some s₂)) (hbroken : s₂.breaksOff = true) {n : Nat}
    (hcut : s₂.rest = s₁.rest.take n) (j₁ j₂ : Journal) :
    (on r₂ j₂ (elements schema shape)).1.1.1 <+: (on r₁ j₁ (elements schema shape)).1.1.1 ∧
      ∃ f, (on r₂ j₂ (elements schema shape)).1.1.2 = .error f ∧ f.locus = some r₂.locus := by
  have hentity : r₂.core.hasEntity = r₁.core.hasEntity := by rw [hr]
  have hprotocol : r₂.core.protocol = r₁.core.protocol := by rw [hr]
  change r₂.hasEntity = r₁.hasEntity at hentity
  change r₂.protocol = r₁.protocol at hprotocol
  cases he : r₂.hasEntity with
  | false =>
    rw [on_elements_without_entity schema shape he]
    exact ⟨List.nil_prefix, _, rfl, rfl⟩
  | true =>
    rcases Body.offer_of_broken h₂ hbroken with ho₂ | ho₂
    · -- Nothing is left of a body that could not be buffered.
      rw [on_elements_of_refusal schema shape he ho₂]
      exact ⟨List.nil_prefix, _, rfl, rfl⟩
    · obtain ⟨metered, ho₁⟩ := Body.gives_of_pending h₁ hwhole
      rw [on_elements_of_offer schema shape he ho₂,
        on_elements_of_offer schema shape (hentity ▸ he) ho₁]
      unfold elementsOf
      dsimp only
      rw [hbroken, hprotocol]
      refine ⟨Json.handed_of_prefix schema _ (hcut ▸ List.take_prefix n s₁.rest) false, ?_⟩
      exact ⟨_, rfl, rfl⟩

def numbersContent : List UInt8 := Text.Utf8.ofString "\x7b\"value\":[1,23]\x7d"

/-- Two numbers, off the wire and not buffered. -/
def numbersReply (s : Source) : Response :=
  let r := Response.of none ⟨.get, "/svc/People", .v4, none⟩ (.json s.overWire) false
  { r with body := { r.body with buffering := false } }

def wholeNumbers : Response := numbersReply (.ofBytes numbersContent)

/-- The stream breaks off between the digits of the second number. -/
def cutNumbers : Response := numbersReply (.breakingAfter (some 13) numbersContent)

/-- What has arrived of the second number is not taken for a number. -/
theorem elements_of_cutNumbers :
    ∃ first all f, (on cutNumbers .empty (elements Json.noRecords .any)).1.1 = (first, .error f) ∧
      (on wholeNumbers .empty (elements Json.noRecords .any)).1.1 = (all, .ok 2) ∧
      first <+: all ∧ first.length = 1 ∧ all.length = 2 := by
  have hlengths :
      (on cutNumbers .empty (elements Json.noRecords .any)).1.1.1.length = 1 ∧
      (on wholeNumbers .empty (elements Json.noRecords .any)).1.1.1.length = 2 ∧
      (on wholeNumbers .empty (elements Json.noRecords .any)).1.1.2.toOption = some 2 := by
    decide +kernel
  have hr : cutNumbers.core = wholeNumbers.core := rfl
  have hwhole : wholeNumbers.body.state = .pending (some ⟨numbersContent, false, true⟩) := rfl
  have hcut : cutNumbers.body.state = .pending (some ⟨numbersContent.take 13, true, true⟩) := by
    decide +kernel
  obtain ⟨hinitial, hfails⟩ :=
    elements_of_broken Json.noRecords .any hr hwhole rfl hcut rfl rfl .empty .empty
  generalize (on cutNumbers .empty (elements Json.noRecords .any)).1.1 = cut at *
  generalize (on wholeNumbers .empty (elements Json.noRecords .any)).1.1 = whole at *
  obtain ⟨first, _⟩ := cut
  obtain ⟨all, _ | count⟩ := whole
  · cases hlengths.2.2
  · obtain ⟨hfirst, hall, hcount⟩ := hlengths
    obtain ⟨f, rfl, -⟩ := hfails
    cases hcount
    exact ⟨first, all, f, rfl, rfl, hinitial, hfirst, hall⟩

end Response

end OData
