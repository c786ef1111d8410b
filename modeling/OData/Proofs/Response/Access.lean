import OData.Response

/-!
# Visits to a response

One equation for each way of putting accesses together, and with them what the body and the health
of a response come to. A body in memory is there to be read as often as wanted (`on_bytes_of_memory`).
**A status below 400 is healthy and changes nothing; any other is a failure of the request that the
response belongs to** (`on_healthy_of_lt`, `on_healthy_of_le`).
-/

set_option autoImplicit false

namespace OData

namespace Access

variable {α β : Type}

/-! ## Running -/

/-- What an access gives on a response, the response afterwards, and the journal. -/
def on (r : Response) (j : Journal) (x : Access α) : (Except Failure α × Response) × Journal :=
  (x.run.run r).run j

theorem on_pure (r : Response) (j : Journal) (a : α) :
    on r j (pure a : Access α) = ((.ok a, r), j) := rfl

theorem on_bind (r : Response) (j : Journal) (x : Access α) (g : α → Access β) :
    on r j (x >>= g) =
      match on r j x with
      | ((.ok a, r'), j') => on r' j' (g a)
      | ((.error f, r'), j') => ((.error f, r'), j') := by
  unfold on
  rw [ExceptT.run_bind, StateT.run_bind, StateT.run_bind]
  rcases ((ExceptT.run x).run r).run j with ⟨⟨_ | _, _⟩, _⟩ <;> rfl

theorem on_bind_ok {r r' : Response} {j j' : Journal} {x : Access α} {a : α}
    (h : on r j x = ((.ok a, r'), j')) (g : α → Access β) :
    on r j (x >>= g) = on r' j' (g a) := by
  rw [on_bind, h]

/-- What succeeds has succeeded in both of its parts. -/
theorem on_bind_eq_ok {r r' : Response} {j j' : Journal} {x : Access α} {g : α → Access β} {b : β}
    (h : on r j (x >>= g) = ((.ok b, r'), j')) :
    ∃ a r₁ j₁, on r j x = ((.ok a, r₁), j₁) ∧ on r₁ j₁ (g a) = ((.ok b, r'), j') := by
  rw [on_bind] at h
  rcases hx : on r j x with ⟨⟨_ | a, r₁⟩, j₁⟩
  · rw [hx] at h
    cases h
  · rw [hx] at h
    exact ⟨a, r₁, j₁, rfl, h⟩

theorem on_tryCatch (r : Response) (j : Journal) (x : Access α) (g : Failure → Access α) :
    on r j (tryCatch x g) =
      match on r j x with
      | ((.ok a, r'), j') => ((.ok a, r'), j')
      | ((.error f, r'), j') => on r' j' (g f) := by
  unfold on
  rw [ExceptT.run_tryCatch, StateT.run_bind, StateT.run_bind]
  rcases ((ExceptT.run x).run r).run j with ⟨⟨_ | _, _⟩, _⟩ <;> rfl

theorem on_get_bind (r : Response) (j : Journal) (g : Response → Access β) :
    on r j (get >>= g) = on r j (g r) := rfl

theorem on_getThe_bind (r : Response) (j : Journal) (g : Journal → Access β) :
    on r j (getThe Journal >>= g) = on r j (g j) := rfl

theorem on_setJournal_bind (r : Response) (j j' : Journal) (g : PUnit → Access β) :
    on r j (set j' >>= g) = on r j' (g ⟨⟩) := rfl

theorem on_pull (r : Response) (j : Journal) (s : Source) (n : Nat) :
    on r j (pull s n) = ((.ok ⟨⟩, r), j.pull s n) := rfl

theorem on_fail (r : Response) (j : Journal) (f : Failure) :
    on r j (fail f : Access α) = ((.error (f.orAtRequest r.locus), r), j) := rfl

end Access

/-! ## The body -/

/-- A body whose content is there for any number of readings: it has been buffered, or will be by
the first of them. -/
inductive Body.Holds (content : List UInt8) : Body → Prop where
  | buffered (buffering : Bool) : Holds content ⟨buffering, .buffered content⟩
  | pending (metered : Bool) : Holds content ⟨true, .pending (some ⟨content, false, metered⟩)⟩

def Response.inMemory (r : Response) (content : List UInt8) : Response :=
  { r with body := { r.body with state := .buffered content } }

theorem Response.holds_inMemory (r : Response) (content : List UInt8) :
    (r.inMemory content).body.Holds content := .buffered _

namespace Access

theorem on_source_of_holds {r : Response} {content : List UInt8} (h : r.body.Holds content)
    (j : Journal) :
    ∃ s j', on r j source = ((.ok s, r.inMemory content), j') ∧ s.rest = content ∧
      s.breaksOff = false := by
  obtain ⟨request, locus, status, reason, headers, hasEntity, body, online, handlers, closed⟩ := r
  cases h with
  | buffered buffering => exact ⟨_, _, rfl, rfl, rfl⟩
  | pending metered => exact ⟨_, _, rfl, rfl, rfl⟩

/-- An answer from memory can be read once, whether or not it is buffered. -/
theorem on_bytes_of_memory {r : Response} {content : List UInt8}
    (h : r.body.state = .pending (some (.ofBytes content))) (j : Journal) :
    ∃ r' j', on r j bytes = ((.ok content, r'), j') ∧ r'.locus = r.locus := by
  obtain ⟨request, locus, status, reason, headers, hasEntity, ⟨buffering, state⟩, online, handlers,
    closed⟩ := r
  obtain rfl : state = .pending (some (.ofBytes content)) := h
  cases buffering with
  | true => exact ⟨_, _, rfl, rfl⟩
  | false => exact ⟨_, _, rfl, rfl⟩

/-! ## Health -/

/-- A status below 400 is healthy, and the body is left alone. -/
theorem on_healthy_of_lt {r : Response} (h : r.status < 400) (j : Journal) :
    on r j healthy = ((.ok ⟨⟩, r), j) := by
  unfold healthy
  rw [on_get_bind, if_pos h]
  rfl

theorem unhealthy_locus (r : Response) (body : Option (List UInt8)) :
    (r.unhealthy body).locus = none := by
  unfold Response.unhealthy
  dsimp only
  split <;> rfl

theorem unhealthy_status (r : Response) (body : Option (List UInt8)) :
    (r.unhealthy body).cause.status? = some r.status := by
  unfold Response.unhealthy
  dsimp only
  split <;> rfl

/-- Any other status is a failure that belongs to the request of the response, with the whole
content in it. -/
theorem on_healthy_of_le {r : Response} (h : 400 ≤ r.status) (he : r.hasEntity = true)
    {content : List UInt8} (hb : r.body.state = .pending (some (.ofBytes content))) (j : Journal) :
    ∃ r' j', on r j healthy =
      ((.error ((r.unhealthy (some content)).atRequest r.locus), r'), j') := by
  obtain ⟨r', j', hbytes, hlocus⟩ := on_bytes_of_memory hb j
  have hbody : on r j (tryCatch (do return some (← bytes)) fun _ => pure none) =
      ((.ok (some content), r'), j') := by
    rw [on_tryCatch, on_bind_ok hbytes]
    rfl
  -- The failure has no request yet, so it gets the one of the response.
  have hfail : (r.unhealthy (some content)).orAtRequest r'.locus =
      (r.unhealthy (some content)).atRequest r.locus := by
    rw [Failure.orAtRequest, Failure.atRequest, unhealthy_locus, hlocus, Option.none_or]
  refine ⟨r', j', ?_⟩
  unfold healthy
  rw [on_get_bind, if_neg (Nat.not_lt.mpr h), if_pos he]
  refine (on_bind_ok hbody _).trans ?_
  rw [on_fail, hfail]

/-- Only a healthy response gets through, and it gets through unchanged. -/
theorem on_healthy_eq_ok {r r' : Response} {j j' : Journal} {u : Unit}
    (h : on r j healthy = ((.ok u, r'), j')) : r.status < 400 ∧ r' = r := by
  by_cases hs : r.status < 400
  · rw [on_healthy_of_lt hs] at h
    cases h
    exact ⟨hs, rfl⟩
  · have hfail : ∀ x : Access (Option (List UInt8)),
        on r j (x >>= fun body => fail (r.unhealthy body)) ≠ ((.ok u, r'), j') := by
      intro x hx
      obtain ⟨_, _, _, -, hx⟩ := on_bind_eq_ok hx
      cases hx
    unfold healthy at h
    rw [on_get_bind, if_neg hs] at h
    dsimp only at h
    split at h
    · exact absurd h (hfail _)
    · exact absurd h (hfail _)

end Access

end OData
