import OData.Proofs.Json.Places
import OData.Proofs.Response.Elements

/-!
# Element by element and as a whole

A collection can be read as a whole, by building the document and looking the elements up, or
element by element, by descending to the elements and passing over everything else. **Where no name
is repeated on the way to the elements, both ways come to the same elements in the same order**, if
they succeed at all (`elements_eq_collection`). **What can be read as a whole can be read element by
element, unless the elements are bare** (`elements_of_collection`): the older version of the protocol
may leave out the object around them, and only the reading as a whole knows of that.

What a reading that succeeds has found is told by `on_document_eq_ok`, `on_collection_eq_ok` and
`on_elements_eq_ok`; the rest is about documents (`Json.readFrom_descend`, `Json.at?_of_descent?`,
`Json.descent?_of_at?`).
-/

set_option autoImplicit false

namespace OData

/-! ## Where the elements are -/

/-- The names on the way to the elements. -/
def Protocol.collectionPath : Protocol → List String
  | v2 => ["d", "results"]
  | v4 => ["value"]

theorem Protocol.collectionPlace_eq (p : Protocol) :
    p.collectionPlace = Json.placeOf p.collectionPath := by
  cases p <;> rfl

/-- The elements are the member of the outermost object that the older version of the protocol puts
around them. -/
def Json.IsBare (p : Protocol) (root : Json) : Prop :=
  p = .v2 ∧ ∃ items, root.member? "d" = some (.list items)

theorem Json.distinctAlong_collectionPath {p : Protocol} {root : Json}
    (hnames : root.memberNames.Nodup)
    (hinner : p = .v2 → ∀ d, root.member? "d" = some d → d.memberNames.Nodup) :
    DistinctAlong p.collectionPath root := by
  cases p with
  | v2 => exact ⟨hnames, fun d hd => ⟨hinner rfl d hd, fun _ _ => ⟨⟩⟩⟩
  | v4 => exact ⟨hnames, fun _ _ => ⟨⟩⟩

/-- Bare elements are not found by a descent. -/
theorem Json.IsBare.descent? {p : Protocol} {root : Json} (h : root.IsBare p)
    (hnames : root.memberNames.Nodup) : Json.descent? p.collectionPlace root = none := by
  obtain ⟨rfl, items, hd⟩ := h
  rw [Protocol.collectionPlace_eq]
  exact Json.descent?_placeOf_cons hnames hd

/-- An untouched body offers all of its stream. -/
theorem Body.rest_of_offer {b : Body} {s s' : Source} (h : b.state = .pending (some s))
    (ho : b.offer = .ok s') : s'.rest = s.rest := by
  unfold offer at ho
  rw [h] at ho
  dsimp only at ho
  split at ho
  · split at ho
    · cases ho
    · cases ho
      rfl
  · cases ho
    rfl

/-- What breaks off is never complete. -/
theorem Json.breaksOff_of_outcome {ρ : Type} {schema : Schema ρ} {want : Want ρ}
    {bytes : List UInt8} {breaksOff : Bool} {item : Item}
    (h : (readFrom schema want bytes breaksOff).outcome = some item) : breaksOff = false := by
  cases breaksOff with
  | false => rfl
  | true => cases h

namespace Access

variable {r r' : Response} {j j' : Journal}

/-- Only the elements are looked up, and they are there in order. -/
theorem collectionIn?_normal {p : Protocol} {root : Json} {items : List Json}
    (h : root.at? p.collectionPlace = some (.list items)) :
    collectionIn? p root.normal = some (items.map Json.normal) := by
  unfold collectionIn?
  rw [Json.at?_normal, h, Option.map_some, Json.normal, Json.normalItems_eq_map]

/-- The elements of a document are the list at their place, or they are bare. -/
theorem exists_of_collectionIn? {p : Protocol} {root : Json} {items : List Json}
    (h : collectionIn? p root.normal = some items) :
    root.IsBare p ∨
      ∃ raw, root.at? p.collectionPlace = some (.list raw) ∧ items = raw.map Json.normal := by
  unfold collectionIn? at h
  rw [Json.at?_normal, Json.at?_normal] at h
  dsimp only at h
  split at h
  · next found hfound =>
    cases h
    cases hplace : root.at? p.collectionPlace with
    | some v =>
      rw [hplace] at hfound
      obtain ⟨raw, rfl, hraw⟩ := Json.eq_list_of_normal (Option.some.inj hfound)
      exact .inr ⟨raw, rfl, hraw⟩
    | none =>
      rw [hplace] at hfound
      cases p with
      | v4 => cases hfound
      | v2 =>
        obtain ⟨v, hv, hlist⟩ := Option.map_eq_some_iff.mp hfound
        obtain ⟨raw, rfl, -⟩ := Json.eq_list_of_normal hlist
        exact .inl ⟨rfl, raw, (Json.at?_singleton "d" root).symm.trans hv⟩
  · cases h

/-! ## Readings that succeed -/

theorem on_entity_bind_eq_ok {α : Type} {x : Access α} {a : α}
    (h : on r j (entity >>= fun _ => x) = ((.ok a, r'), j')) :
    on r j x = ((.ok a, r'), j') := by
  by_cases he : r.hasEntity = true
  · rw [on_bind_ok (on_entity (c := r.core) he rfl j)] at h
    exact h
  · unfold entity at h
    rw [on_bind, on_get_bind, if_neg he] at h
    cases h

theorem on_source_eq_ok {s : Source} (h : on r j source = ((.ok s, r'), j')) :
    r.body.offer = .ok s ∧ r' = r.accessed := by
  rw [on_source] at h
  cases ho : r.body.offer with
  | error e =>
    rw [ho] at h
    cases h
  | ok s' =>
    rw [ho] at h
    cases h
    exact ⟨rfl, rfl⟩

/-- A document was there to the end of the stream. -/
theorem on_document_eq_ok {v : Json} (h : on r j document = ((.ok v, r'), j')) :
    ∃ s root, r.body.offer = .ok s ∧ s.breaksOff = false ∧ Json.parseRaw? s.rest = some root ∧
      v = root.normal ∧ r' = r.accessed := by
  obtain ⟨s, r₁, j₁, hs, hread⟩ := on_bind_eq_ok (on_entity_bind_eq_ok h)
  obtain ⟨ho, rfl⟩ := on_source_eq_ok hs
  dsimp only at hread
  rw [on_bind_ok (on_pull _ _ _ _)] at hread
  split at hread
  · next root hroot =>
    cases hread
    have hb : s.breaksOff = false := Json.breaksOff_of_outcome hroot
    rw [hb] at hroot
    refine ⟨s, root, ho, hb, ?_, rfl, rfl⟩
    unfold Json.parseRaw?
    rw [hroot]
  · cases hread

/-- The elements were looked up in a document in order. -/
theorem on_collection_eq_ok {items : List Json}
    (h : on r j collection = ((.ok items, r'), j')) :
    ∃ s root, r.body.offer = .ok s ∧ s.breaksOff = false ∧ Json.parseRaw? s.rest = some root ∧
      collectionIn? r.protocol root.normal = some items := by
  obtain ⟨v, r₁, j₁, hv, h⟩ := on_bind_eq_ok h
  obtain ⟨s, root, ho, hb, hroot, rfl, rfl⟩ := on_document_eq_ok hv
  rw [on_get_bind] at h
  split at h
  · next found hfound =>
    cases h
    exact ⟨s, root, ho, hb, hroot, hfound⟩
  · cases h

theorem on_count_eq_ok {reading : Json.Reading} {n : Nat}
    (h : on r j (match reading.outcome with
      | some (.count (some n)) => return n
      | some _ => wrongShape
      | none => invalidJson) = ((.ok n, r'), j')) :
    reading.outcome = some (.count (some n)) := by
  split at h
  · next m hm =>
    cases h
    exact hm
  · cases h
  · cases h

/-- A descent to the elements was completed at the end of the stream. -/
theorem on_elements_eq_ok {ρ : Type} {schema : Json.Schema ρ} {shape : Json.Shape ρ}
    {handed : List Json} {n : Nat}
    (h : Visit.on r j (Visit.elements schema shape) = (((handed, .ok n), r'), j')) :
    ∃ s, r.body.offer = .ok s ∧ s.breaksOff = false ∧
      (Json.readFrom schema (.descend r.protocol.collectionPlace shape) s.rest false).outcome =
        some (.count (some n)) ∧
      (Json.readFrom schema (.descend r.protocol.collectionPlace shape) s.rest false).handed =
        handed := by
  unfold Visit.elements at h
  rw [Visit.on_bind] at h
  rcases hopen : Visit.on r j (entity >>= fun _ => source : Access Source).run with ⟨⟨o, r₁⟩, j₁⟩
  rw [hopen] at h
  cases o with
  | error f => cases h
  | ok s =>
    obtain ⟨ho, rfl⟩ := on_source_eq_ok (on_entity_bind_eq_ok hopen)
    let reading :=
      Json.readFrom schema (.descend r.protocol.collectionPlace shape) s.rest s.breaksOff
    let count : Access Nat :=
      match reading.outcome with
      | some (.count (some n)) => return n
      | some _ => wrongShape
      | none => invalidJson
    change Visit.on r.accessed (j₁.pull s _)
      (count.run >>= fun n => pure (reading.handed, n)) = _ at h
    rw [Visit.on_bind] at h
    rcases hcount : Visit.on r.accessed (j₁.pull s _) count.run with ⟨⟨o, r₂⟩, j₂⟩
    rw [hcount] at h
    cases h
    have houtcome : reading.outcome = some (.count (some n)) := on_count_eq_ok hcount
    have hb : s.breaksOff = false := Json.breaksOff_of_outcome houtcome
    change (Json.readFrom schema _ s.rest s.breaksOff).outcome = _ at houtcome
    rw [hb] at houtcome
    refine ⟨s, ho, hb, houtcome, ?_⟩
    change _ = (Json.readFrom schema _ s.rest s.breaksOff).handed
    rw [hb]

end Access

namespace Response

/-- A page with members out of order, and with others around its elements. -/
def pageContent : List UInt8 :=
  Text.Utf8.ofString
    "\x7b\"d\":\x7b\"n\":[],\"results\":[\x7b\"b\":1,\"a\":2\x7d,3],\"x\":0\x7d\x7d "

def pageReply (buffering : Bool) : Response :=
  let r := Response.of none ⟨.get, "/svc/People", .v2, none⟩
    (.json ⟨pageContent, false, true⟩) false
  { r with body := { r.body with buffering } }

theorem names_pageContent {root : Json} (hroot : Json.parseRaw? pageContent = some root) :
    root.memberNames.Nodup ∧ ∀ d, root.member? "d" = some d → d.memberNames.Nodup := by
  have hall : (Json.parseRaw? pageContent).all fun root =>
      decide root.memberNames.Nodup && (root.member? "d").all (decide ·.memberNames.Nodup) := by
    decide +kernel
  rw [hroot, Option.all_some, Bool.and_eq_true] at hall
  obtain ⟨houter, hinner⟩ := hall
  refine ⟨of_decide_eq_true houter, ?_⟩
  intro d hd
  rw [hd] at hinner
  exact of_decide_eq_true hinner

/-- **Both ways come to the same elements.** Read from untouched responses over the same bytes, they
are the same in the same order, and as many as are counted, if no name is repeated in the outermost
object nor, in the older version of the protocol, in the object around the elements. -/
theorem elements_eq_collection {ρ : Type} (schema : Json.Schema ρ) {r₁ r₂ : Response}
    (hp : r₁.protocol = r₂.protocol) {s₁ s₂ : Source} (h₁ : r₁.body.state = .pending (some s₁))
    (h₂ : r₂.body.state = .pending (some s₂)) (hs : s₁.rest = s₂.rest)
    (hnames : ∀ root, Json.parseRaw? s₁.rest = some root →
      root.memberNames.Nodup ∧
        (r₁.protocol = .v2 → ∀ d, root.member? "d" = some d → d.memberNames.Nodup))
    {r₁' r₂' : Response} {j₁ j₂ j₁' j₂' : Journal} {items handed : List Json} {n : Nat}
    (hcollection : Access.on r₁ j₁ Access.collection = ((.ok items, r₁'), j₁'))
    (helements : Visit.on r₂ j₂ (Visit.elements schema .any) = (((handed, .ok n), r₂'), j₂')) :
    handed = items ∧ n = items.length := by
  obtain ⟨t₁, root, ho₁, -, hroot, hitems⟩ := Access.on_collection_eq_ok hcollection
  obtain ⟨t₂, ho₂, -, hcount, hhanded⟩ := Access.on_elements_eq_ok helements
  rw [Body.rest_of_offer h₁ ho₁] at hroot
  rw [Body.rest_of_offer h₂ ho₂, ← hs, ← hp] at hcount hhanded
  obtain ⟨raw, hdescent, hraw⟩ := Json.descent?_of_readFrom schema hroot hcount
  rw [Protocol.collectionPlace_eq] at hdescent
  have hdistinct : Json.DistinctAlong r₁.protocol.collectionPath root :=
    Json.distinctAlong_collectionPath (hnames root hroot).1 (hnames root hroot).2
  obtain ⟨hat, rfl⟩ := Json.at?_of_descent? hdistinct hdescent
  rw [← Protocol.collectionPlace_eq] at hat
  rw [Access.collectionIn?_normal hat] at hitems
  cases hitems
  exact ⟨hhanded.symm.trans hraw, (List.length_map _).symm⟩

/-- Two elements are found in it by either way. -/
theorem elements_eq_collection_pageReply :
    ∃ items handed n,
      (Access.on (pageReply true) .empty Access.collection).1.1 = .ok items ∧
      (Visit.on (pageReply false) .empty (Visit.elements Json.noRecords .any)).1.1 =
        (handed, .ok n) ∧
      handed = items ∧ n = items.length ∧ items.length = 2 := by
  have hlength :
      (Access.on (pageReply true) .empty Access.collection).1.1.toOption.map List.length =
        some 2 := by
    decide +kernel
  have hok :
      (Visit.on (pageReply false) .empty (Visit.elements Json.noRecords .any)).1.1.2.isOk := by
    decide +kernel
  have h₁ : (pageReply true).body.state = .pending (some ⟨pageContent, false, true⟩) := rfl
  have h₂ : (pageReply false).body.state = .pending (some ⟨pageContent, false, true⟩) := rfl
  have hp : (pageReply true).protocol = (pageReply false).protocol := rfl
  rcases hcollection : Access.on (pageReply true) .empty Access.collection with
    ⟨⟨f | items, r₁⟩, j₁⟩
  · rw [hcollection] at hlength
    cases hlength
  rcases helements : Visit.on (pageReply false) .empty (Visit.elements Json.noRecords .any) with
    ⟨⟨⟨handed, f | n⟩, r₂⟩, j₂⟩
  · rw [helements] at hok
    cases hok
  rw [hcollection] at hlength
  obtain ⟨hsame, hcount⟩ := elements_eq_collection Json.noRecords hp h₁ h₂ rfl
    (fun _ hroot => ⟨(names_pageContent hroot).1, fun _ => (names_pageContent hroot).2⟩)
    hcollection helements
  exact ⟨items, handed, n, rfl, rfl, hsame, hcount, Option.some.inj hlength⟩

/-- **What can be read as a whole can be read element by element**, with the same elements, unless
they are bare: then nothing is handed out, and the reading fails as if the body were no JSON. Both
responses are untouched and over the same bytes, and no name is repeated in the outermost object nor,
in the older version of the protocol, in the object around the elements. -/
theorem elements_of_collection {ρ : Type} (schema : Json.Schema ρ) {r₁ r₂ : Response}
    (hp : r₁.protocol = r₂.protocol) {s₁ s₂ : Source} (h₁ : r₁.body.state = .pending (some s₁))
    (h₂ : r₂.body.state = .pending (some s₂)) (hs : s₁.rest = s₂.rest)
    (hwhole : s₂.breaksOff = false) (he : r₂.hasEntity = true)
    (hnames : ∀ root, Json.parseRaw? s₁.rest = some root →
      root.memberNames.Nodup ∧
        (r₁.protocol = .v2 → ∀ d, root.member? "d" = some d → d.memberNames.Nodup))
    {r₁' : Response} {j₁ j₁' : Journal} {items : List Json}
    (hcollection : Access.on r₁ j₁ Access.collection = ((.ok items, r₁'), j₁')) (j₂ : Journal) :
    ∃ root, Json.parseRaw? s₁.rest = some root ∧
      (¬ root.IsBare r₁.protocol →
        (Visit.on r₂ j₂ (Visit.elements schema .any)).1.1 = (items, .ok items.length)) ∧
      (root.IsBare r₁.protocol →
        (Visit.on r₂ j₂ (Visit.elements schema .any)).1.1 =
          ([], .error ((Failure.unreadable (.invalidJson r₂.protocol)).atRequest r₂.locus))) := by
  obtain ⟨t₁, root, ho₁, -, hroot, hitems⟩ := Access.on_collection_eq_ok hcollection
  rw [Body.rest_of_offer h₁ ho₁] at hroot
  obtain ⟨hnodup, hinner⟩ := hnames root hroot
  obtain ⟨metered, ho₂⟩ := Body.gives_of_pending h₂ hwhole
  have helements := Visit.on_elements_of_offer schema .any he ho₂ j₂
  unfold Visit.elementsOf at helements
  dsimp only at helements
  rw [← hs, ← hp] at helements
  have hdescend := Json.readFrom_descend schema r₁.protocol.collectionPlace hroot
  refine ⟨root, hroot, fun hbare => ?_, fun hbare => ?_⟩
  · obtain ⟨raw, hat, rfl⟩ := (Access.exists_of_collectionIn? hitems).resolve_left hbare
    have hdescent : Json.descent? r₁.protocol.collectionPlace root = some (some raw.length, raw) := by
      rw [Protocol.collectionPlace_eq] at hat ⊢
      exact Json.descent?_of_at? (Json.distinctAlong_collectionPath hnodup hinner) hat
    rcases hdescend with ⟨n, found, hfound, hcount, hhanded⟩ | ⟨hnone, -⟩
    · rw [hdescent] at hfound
      cases hfound
      rw [helements, hcount, hhanded, List.length_map]
      rfl
    · rw [hdescent] at hnone
      cases hnone
  · rcases hdescend with ⟨n, found, hfound, -⟩ | ⟨-, hcount, hhanded⟩
    · rw [hbare.descent? hnodup] at hfound
      cases hfound
    · rw [helements, hcount, hhanded]
      rfl

/-- The page has an object around its elements, and gives both of them one by one. -/
theorem elements_of_pageReply :
    ∃ root items r j, Json.parseRaw? pageContent = some root ∧ ¬ root.IsBare .v2 ∧
      Access.on (pageReply true) .empty Access.collection = ((.ok items, r), j) ∧
      (Visit.on (pageReply false) .empty (Visit.elements Json.noRecords .any)).1.1 =
        (items, .ok items.length) := by
  have hok : (Access.on (pageReply true) .empty Access.collection).1.1.isOk := by decide +kernel
  have h₁ : (pageReply true).body.state = .pending (some ⟨pageContent, false, true⟩) := rfl
  have h₂ : (pageReply false).body.state = .pending (some ⟨pageContent, false, true⟩) := rfl
  have hp : (pageReply true).protocol = (pageReply false).protocol := rfl
  rcases hcollection : Access.on (pageReply true) .empty Access.collection with
    ⟨⟨f | items, r⟩, j⟩
  · rw [hcollection] at hok
    cases hok
  obtain ⟨root, hroot, hfound, -⟩ := elements_of_collection Json.noRecords hp h₁ h₂ rfl rfl rfl
    (fun _ hroot => ⟨(names_pageContent hroot).1, fun _ => (names_pageContent hroot).2⟩)
    hcollection .empty
  have hbare : ¬ root.IsBare .v2 := by
    have hall : (Json.parseRaw? pageContent).all fun root =>
        (root.member? "d").all (·.isObject) := by
      decide +kernel
    rintro ⟨-, found, hd⟩
    rw [hroot, Option.all_some, hd] at hall
    cases hall
  exact ⟨root, items, r, j, hroot, hbare, rfl, hfound hbare⟩

def bareReply (buffering : Bool) : Response :=
  let content := Text.Utf8.ofString "\x7b\"d\":[1]\x7d"
  { pageReply buffering with body := ⟨buffering, .pending (some ⟨content, false, true⟩)⟩ }

/-- Of a healthy page with one bare element and no name repeated, the element is in the collection,
and is not handed out. -/
theorem elements_of_bareReply :
    (bareReply false).status = 200 ∧
      (Access.on (bareReply true) .empty Access.collection).1.1.toOption.map List.length = some 1 ∧
      (Visit.on (bareReply false) .empty (Visit.elements Json.noRecords .any)).1.1.1.length = 0 ∧
      (Visit.on (bareReply false) .empty (Visit.elements Json.noRecords .any)).1.1.2.isOk =
        false := by
  decide +kernel

end Response

end OData
