import OData.Proofs.Batch.Correlation
import OData.Proofs.Response.Reading

/-!
# Answers do not interfere

Two responses whose documents have the same frame and differ in one entry. Where an entry stands
depends on the frame alone (`places_congr`), and what it comes to on the entry and its place. **So
all other answers are the same in both** (`answers_isolated`), whatever the one entry holds: it may
be no response at all, or claim to answer the request of another entry.
-/

set_option autoImplicit false

namespace OData

open OData.Multipart

namespace Multipart

/-! ## Frames -/

namespace PartLines

def entries : PartLines → List EntryLines
  | single e => [e]
  | changeset _ _ _ entries _ => entries

/-- The part with all its entries blank. -/
def frame : PartLines → PartLines
  | single _ => single ⟨[], []⟩
  | changeset head inner preamble entries epilogue =>
    changeset head inner preamble (entries.map fun _ => ⟨[], []⟩) epilogue

theorem length_entries_frame (p : PartLines) : p.frame.entries.length = p.entries.length := by
  cases p with
  | single e => rfl
  | changeset head inner preamble entries epilogue => exact List.length_map _

theorem entries_read (p : PartLines) : p.read.entries = p.entries.map EntryLines.entry := by
  cases p <;> rfl

end PartLines

/-- All entries in the order of the document. -/
def Document.entryLines (d : Document) : List EntryLines := d.parts.flatMap PartLines.entries

/-- The same boundaries, parts and numbers of entries, and the same lines around the entries. -/
structure Document.SameFrame (d₁ d₂ : Document) : Prop where
  boundary : d₁.boundary = d₂.boundary
  preamble : d₁.preamble = d₂.preamble
  parts : d₁.parts.map PartLines.frame = d₂.parts.map PartLines.frame

/-- Documents of one frame that have the same entries but for the one with this index. -/
structure Document.DifferAt (n : Nat) (d₁ d₂ : Document) : Prop extends SameFrame d₁ d₂ where
  others : ∀ k, k ≠ n → d₁.entryLines[k]? = d₂.entryLines[k]?

theorem Document.flatten_entries (d : Document) :
    d.entries.flatten = d.entryLines.map EntryLines.entry := by
  rw [entries, entryLines, List.map_flatMap, ← List.flatMap_def]
  exact List.flatMap_congr fun p _ => p.entries_read

theorem Document.SameFrame.length_entries {d₁ d₂ : Document} (h : d₁.SameFrame d₂) :
    d₁.entries.map List.length = d₂.entries.map List.length := by
  have hlength : ∀ d : Document, d.entries.map List.length =
      (d.parts.map PartLines.frame).map fun p => p.entries.length := by
    intro d
    rw [entries, List.map_map, List.map_map]
    refine List.map_congr_left ?_
    intro p _
    rw [Function.comp_apply, Function.comp_apply, p.entries_read, List.length_map,
      p.length_entries_frame]
  rw [hlength, hlength, h.parts]

/-! ## Places -/

def Placed.place (p : Placed) : Nat × Nat := (p.part, p.index)

theorem places_placedIn (part index : Nat) (es : List Entry) :
    (placedIn part index es).map Placed.place =
      (List.range' index es.length).map fun k => (part, k) := by
  induction es generalizing index with
  | nil => rfl
  | cons e es ih =>
    rw [placedIn_cons, List.map_cons, ih, List.length_cons, List.range'_succ, List.map_cons]
    rfl

/-- **Where the entries stand depends on how many there are in each part.** -/
theorem places_congr {ps qs : List (List Entry)} (h : ps.map List.length = qs.map List.length)
    (part : Nat) : (placed part ps).map Placed.place = (placed part qs).map Placed.place := by
  induction ps generalizing qs part with
  | nil => rw [List.map_eq_nil_iff.mp h.symm]
  | cons es ps ih =>
    obtain ⟨fs, qs, rfl, hlength, hrest⟩ := List.map_eq_cons_iff.mp h.symm
    rw [placed_cons, placed_cons, List.map_append, List.map_append, places_placedIn,
      places_placedIn, hlength, ih hrest.symm]

/-- Entries that are the same at an index stand there at the same place. -/
theorem getElem?_placed {ps qs : List (List Entry)}
    (h : ps.map List.length = qs.map List.length) {k : Nat}
    (hk : ps.flatten[k]? = qs.flatten[k]?) : (placed 0 ps)[k]? = (placed 0 qs)[k]? := by
  have hplace : (placed 0 ps)[k]?.map Placed.place = (placed 0 qs)[k]?.map Placed.place := by
    rw [← List.getElem?_map, ← List.getElem?_map, places_congr h]
  have hentry : (placed 0 ps)[k]?.map Placed.entry = (placed 0 qs)[k]?.map Placed.entry := by
    rw [← List.getElem?_map, ← List.getElem?_map, entries_placed, entries_placed, hk]
  cases hp : (placed 0 ps)[k]? with
  | none =>
    rw [hp] at hentry
    exact (Option.map_eq_none_iff.mp hentry.symm).symm
  | some p =>
    rw [hp] at hplace hentry
    obtain ⟨q, hq, hqp⟩ := Option.map_eq_some_iff.mp hplace.symm
    rw [hq] at hentry ⊢
    have he : p.entry = q.entry := Option.some.inj hentry
    obtain ⟨part, index, e⟩ := p
    obtain ⟨part', index', e'⟩ := q
    cases hqp
    cases he
    rfl

end Multipart

/-! ## Responses that give a document once -/

/-- The headers of the response name the boundary of the document, and the next access to its body
gives a content that begins with the lines of the document. -/
structure Response.Gives (r : Response) (d : Document) : Prop where
  boundary : boundaryOf? r.headers = some d.boundary
  content : ∃ (content : List UInt8) (rest : List (List Char)), r.body.Gives content ∧
    (linesOf content false).map Line.text = d.lines ++ rest

theorem Response.Carries.gives {r : Response} {d : Document} (h : r.Carries d) : r.Gives d := by
  obtain ⟨content, rest, hc, ht⟩ := h.content
  exact ⟨h.boundary, content, rest, hc.gives, ht⟩

theorem Response.Gives.on_parts {r : Response} {d : Document} (h : r.Gives d) (j : Journal) :
    ∃ j', Access.on r j Access.parts = ((.ok d.entries, r.accessed), j') := by
  obtain ⟨content, rest, ⟨metered, hc⟩, ht⟩ := h.content
  obtain ⟨r₁, hreads⟩ := reads_document d ht
  have hw : (Reader.start d.boundary content false).walkAll.1 = ⟨d.entries, false⟩ := by
    rw [walkAll_of_reads hreads, List.map_map]
    rfl
  have hs := Access.on_source r j
  rw [hc] at hs
  exact BatchResponse.on_parts_of_source h.boundary hs hw

namespace BatchResponse

open Access

/-- **One entry has no part in the answers of the others.** Two responses to a batch whose documents
differ in one entry both have one answer for each entry, and all answers but the one of that entry
are the same. -/
theorem answers_isolated (b : Batch) {d₁ d₂ : Document} {n : Nat} (hd : d₁.DifferAt n d₂)
    {r₁ r₂ : Response} (h₁ : r₁.Gives d₁) (h₂ : r₂.Gives d₂) (hl : r₁.locus = r₂.locus)
    (j₁ j₂ : Journal) :
    ∃ rs₁ rs₂, (on r₁ j₁ (answers b)).1.1 = .ok rs₁ ∧ (on r₂ j₂ (answers b)).1.1 = .ok rs₂ ∧
      rs₁.length = d₁.entryLines.length ∧ rs₂.length = rs₁.length ∧
      ∀ k, k ≠ n → rs₁[k]? = rs₂[k]? := by
  obtain ⟨_, hparts₁⟩ := h₁.on_parts j₁
  obtain ⟨_, hparts₂⟩ := h₂.on_parts j₂
  obtain ⟨_, hanswers₁⟩ := on_answers b hparts₁
  obtain ⟨_, hanswers₂⟩ := on_answers b hparts₂
  have hshape := hd.toSameFrame.length_entries
  have hlength : ∀ d : Document, (placed 0 d.entries).length = d.entryLines.length := by
    intro d
    rw [← List.length_map (f := Placed.entry), entries_placed, d.flatten_entries, List.length_map]
  refine ⟨_, _, congrArg (·.1.1) hanswers₁, congrArg (·.1.1) hanswers₂, ?_, ?_, ?_⟩
  · rw [List.length_map, hlength]
  · rw [List.length_map, List.length_map]
    have hplaces := congrArg List.length (places_congr hshape 0)
    rw [List.length_map, List.length_map] at hplaces
    exact hplaces.symm
  · intro k hk
    have hentries : d₁.entries.flatten[k]? = d₂.entries.flatten[k]? := by
      rw [d₁.flatten_entries, d₂.flatten_entries, List.getElem?_map, List.getElem?_map,
        hd.others k hk]
    rw [List.getElem?_map, List.getElem?_map, getElem?_placed hshape hentries, hl]

/-- The second entry is no response, and carries the Content-ID of the first. -/
def disturbedDocument : Document where
  boundary := "b"
  preamble := []
  parts :=
    [.single ⟨["Content-ID: 1".toList], ["HTTP/1.1 200 OK".toList]⟩,
      .single ⟨["Content-ID: 1".toList], ["no response".toList, [], "--c".toList]⟩]
  foreign := ungroupedDocument.foreign
  wellFormed := by decide +kernel

/-- The stream is handed out once and comes off the wire. -/
def disturbedReply : Response :=
  let content := Text.Utf8.ofString <| "--b\nContent-ID: 1\n\nHTTP/1.1 200 OK\n" ++
    "--b\nContent-ID: 1\n\nno response\n\n--c\n--b--\n"
  { replyWith "" with body := ⟨false, .pending (some ⟨content, false, true⟩)⟩ }

theorem gives_disturbedReply : disturbedReply.Gives disturbedDocument :=
  ⟨boundary_replyWith "", _, [], Body.gives_pending _ _ _, by decide +kernel⟩

theorem differAt_disturbedDocument : ungroupedDocument.DifferAt 1 disturbedDocument where
  boundary := rfl
  preamble := rfl
  parts := by decide +kernel
  others := by
    intro k hk
    match k with
    | 0 => decide +kernel
    | 1 => exact absurd rfl hk
    | k + 2 =>
      have h₁ : ungroupedDocument.entryLines.length ≤ k + 2 := Nat.le_add_left 2 k
      have h₂ : disturbedDocument.entryLines.length ≤ k + 2 := Nat.le_add_left 2 k
      rw [List.getElem?_eq_none h₁, List.getElem?_eq_none h₂]

/-- The first request gets the same answer although the other entry has its Content-ID as well. -/
theorem answers_isolated_disturbedReply :
    ∃ rs₁ rs₂, (on ungroupedReply .empty (answers Batch.sampleBatch)).1.1 = .ok rs₁ ∧
      (on disturbedReply .empty (answers Batch.sampleBatch)).1.1 = .ok rs₂ ∧
      rs₁.length = 2 ∧ rs₂.length = 2 ∧ rs₁[0]? = rs₂[0]? := by
  obtain ⟨rs₁, rs₂, hrs₁, hrs₂, hlength₁, hlength₂, hothers⟩ := answers_isolated Batch.sampleBatch
    differAt_disturbedDocument carries_ungroupedReply.gives gives_disturbedReply rfl .empty .empty
  have htwo : rs₁.length = 2 := hlength₁
  exact ⟨rs₁, rs₂, hrs₁, hrs₂, htwo, hlength₂.trans htwo, hothers 0 (by decide)⟩

end BatchResponse

end OData
