import OData.Proofs.Batch.Serialization

/-!
# The headers in a written part

The headers of a request stand in its part one behind the other, as they are: the lines from the
request line to the next blank one are the lines of their texts, as far as these have no blank one
themselves (`headLines_text`). **If no name and no value holds a line feed, reading those lines
gives the headers back** (`headers_of_part`), in their order and without the blanks around them; a
carriage return does no harm. A line feed is an ending wherever it comes from: what is behind it in
a value is a header of its own, or no header any more (`headers_of_fedPart`).
-/

set_option autoImplicit false

namespace OData.Batch

open OData.Text OData.Multipart

/-! ## Reading a part -/

/-- The lines of a part from its request line, which stands behind the head of the part and a blank
line, to the next blank one. -/
def headLines (ls : List (List Char)) : List (List Char) :=
  ((ls.dropWhile (!isAllBlank ·)).drop 2).takeWhile (!isAllBlank ·)

theorem headLines_append {head : List (List Char)} (h : ∀ l ∈ head, isAllBlank l = false)
    (request : List Char) (rest : List (List Char)) :
    headLines (head ++ [] :: request :: rest) = rest.takeWhile (!isAllBlank ·) := by
  have hdrop : (head ++ [] :: request :: rest).dropWhile (!isAllBlank ·) =
      [] :: request :: rest := by
    rw [List.dropWhile_append_of_pos (by simpa using h)]
    rfl
  rw [headLines, hdrop]
  rfl

theorem takeWhile_append_blank (ls rest : List (List Char)) :
    (ls ++ [] :: rest).takeWhile (!isAllBlank ·) = ls.takeWhile (!isAllBlank ·) := by
  induction ls with
  | nil => rfl
  | cons l ls ih =>
    rw [List.cons_append, List.takeWhile_cons, List.takeWhile_cons, ih]

/-! ## Writing a part -/

namespace Item

/-- The text of the part that a request is written as. -/
def text (i : Item) : List Char := joinWith ['\r', '\n'] (i.lines.map String.toList)

/-- The lines of a part: its head, the request line, and what the headers and the body of the
request come to. -/
theorem lines_text {i : Item} (he : Escaped i.resourcePath.toList) :
    Text.lines i.text = itemHead i.contentId ++ [] :: i.requestLine.toList ::
      (written i.headerLines ++ [] :: written i.request.operation.body?.toList) := by
  -- The last text is empty, and the lines are those of the others, each with an ending.
  obtain ⟨ts, hts⟩ : ∃ ts, i.lines = ts ++ [""] := ⟨_, rfl⟩
  have htext : Text.lines i.text = written ts := by
    rw [text, hts, List.map_append]
    refine (congrArg Text.lines (joinWith_concat_nil _ _)).trans ?_
    rw [lines_flatMap_crlf, written, List.flatMap_map]
  have hwritten := i.written_lines
  rw [EntryLines.lines, entryLines, i.message_eq, written_line (no_feed_requestLine he),
    written_append, written_empty, written_append, hts, written_append] at hwritten
  have hempty : written [""] = [[]] := written_empty []
  rw [hempty] at hwritten
  rw [htext, ← List.append_left_inj [[]], hwritten]
  simp only [List.append_assoc, List.cons_append]

end Item

theorem isAllBlank_of_mem_itemHead {n : Nat} {l : List Char} (h : l ∈ itemHead n) :
    isAllBlank l = false := by
  simp only [itemHead, List.mem_cons, List.not_mem_nil, or_false] at h
  rcases h with rfl | rfl | rfl <;> rfl

/-- **What is read as the headers of a part**: the lines of the texts of its headers, up to the
first blank one. -/
theorem headLines_text {i : Item} (he : Escaped i.resourcePath.toList) :
    headLines (lines i.text) = (written i.headerLines).takeWhile (!isAllBlank ·) := by
  rw [i.lines_text he, headLines_append (fun l hl => isAllBlank_of_mem_itemHead hl),
    takeWhile_append_blank]

/-! ## The headers come back -/

/-- No name holds a colon. -/
def Item.NamesPlain (i : Item) : Prop := ∀ p ∈ i.request.sentHeaders.pairs, ':' ∉ p.1.toList

/-- No name and no value has lines of its own. -/
def Item.HeadersOnLines (i : Item) : Prop :=
  ∀ p ∈ i.request.sentHeaders.pairs, '\n' ∉ p.1.toList ∧ '\n' ∉ p.2.toList

instance (i : Item) : Decidable i.HeadersOnLines := inferInstanceAs (Decidable (∀ p ∈ _, _))

theorem written_of_no_feed {ts : List String} (h : ∀ t ∈ ts, '\n' ∉ t.toList) :
    written ts = ts.map String.toList := by
  induction ts with
  | nil => rfl
  | cons t ts ih =>
    obtain ⟨ht, hts⟩ := List.forall_mem_cons.mp h
    rw [written_line ht, ih hts, List.map_cons]

namespace Item

variable {i : Item}

theorem HeadersOnLines.no_feed (h : i.HeadersOnLines) : ∀ t ∈ i.headerLines, '\n' ∉ t.toList := by
  intro t ht
  obtain ⟨p, hp, rfl⟩ := List.mem_map.mp ht
  obtain ⟨hname, hvalue⟩ := h p hp
  simp only [String.toList_append, List.mem_append, not_or]
  exact ⟨⟨hname, by decide⟩, hvalue⟩

/-- There is a colon between a name and its value. -/
theorem colon_mem_headerLine {t : String} (h : t ∈ i.headerLines) : ':' ∈ t.toList := by
  obtain ⟨p, -, rfl⟩ := List.mem_map.mp h
  simp

/-- So every header is one line, and none of them is blank. -/
theorem headLines_of_headersOnLines (he : Escaped i.resourcePath.toList) (h : i.HeadersOnLines) :
    headLines (Text.lines i.text) = i.headerLines.map String.toList := by
  rw [headLines_text he, written_of_no_feed h.no_feed, List.takeWhile_eq_self_iff]
  intro l hl
  obtain ⟨t, ht, rfl⟩ := List.mem_map.mp hl
  rw [Bool.not_eq_true']
  exact isAllBlank_of_mem (colon_mem_headerLine ht) (by decide)

end Item

theorem foreign_of_colon {boundary : String}
    (hb : ∀ c ∈ boundary.toList, MediaType.isTokenChar c = true) {l : List Char} (hl : ':' ∈ l) :
    Foreign boundary.toList l := by
  have hcolon : ':' ∉ delimiterOf boundary.toList := by
    intro h
    simp only [delimiterOf, List.mem_cons] at h
    rcases h with h | h | h
    · cases h
    · cases h
    · exact absurd (hb ':' h) (by decide)
  constructor
  · rintro rfl
    exact hcolon hl
  · rintro rfl
    rcases List.mem_append.mp hl with h | h
    · exact hcolon h
    · exact absurd h (by decide)

/-- **The headers of a request are those in its part.** What is read between the request line and
the next blank line are the headers that the request is sent with, in their order, and none of these
lines begins another part of the batch or of a changeset. This takes names without colons, and names
and values without line feeds. -/
theorem headers_of_part {b : Batch} (hb : b.Reachable) {i : Item} (hi : i ∈ b.items)
    (hnames : i.NamesPlain) (hlines : i.HeadersOnLines) :
    (headLines (lines i.text)).map headerLine? =
      i.request.sentHeaders.pairs.map (fun p => some (trimmed p.1, trimmed p.2)) ∧
    ∀ l ∈ headLines (lines i.text), Foreign b.boundary.toList l ∧
      ∀ c, .changeset c ∈ b.parts → Foreign c.boundary.toList l := by
  have he := hb.sound.numbered.escaped i hi
  rw [i.headLines_of_headersOnLines he hlines]
  constructor
  · rw [Item.headerLines, List.map_map, List.map_map]
    refine List.map_congr_left ?_
    intro p hp
    exact headerLine?_pair (hnames p hp) p.2
  · intro l hl
    obtain ⟨t, ht, rfl⟩ := List.mem_map.mp hl
    have hcolon := Item.colon_mem_headerLine ht
    exact ⟨foreign_of_colon b.isTokenChar_boundary hcolon,
      fun c _ => foreign_of_colon c.isTokenChar_boundary hcolon⟩

/-- A read that is traced under some value, before it names a role. -/
def tracedRead (value : String) : Request :=
  let r := Request.of "/service" (.of "Set") .v4 (.read "")
  { r with
    context := { r.context with
      headers := ⟨[⟨"Accept", ["application/json"]⟩, ⟨"X-Trace", [value]⟩,
        ⟨"X-Role", ["user"]⟩]⟩ } }

def tracedItem (value : String) : Item := ⟨1, tracedRead value, "Set"⟩

def tracedBatch (value : String) : Batch :=
  { Batch.of "/service" .v4 fun k => ⟨0, k.toUInt64⟩ with
    parts := [.single (tracedItem value)]
    nextId := 2 }

theorem asItem_tracedRead (value : String) :
    (Batch.of "/service" .v4 fun k => ⟨0, k.toUInt64⟩).asItem "read" (tracedRead value) =
      .ok (tracedItem value) := by
  have huri : (tracedRead value).uri .batch = .ok "/service/Set" := by
    -- The headers have no part in it.
    show (Request.of "/service" (.of "Set") .v4 (.read "")).uri .batch = _
    rfl
  unfold asItem
  rw [huri]
  rfl

theorem reachable_tracedBatch (value : String) : (tracedBatch value).Reachable := by
  have hb := Reachable.of "/service" .v4 fun k => ⟨0, k.toUInt64⟩
  refine hb.step (.add "read" (tracedRead value) (by decide) ?_)
  rw [add, asItem_tracedRead]
  rfl

theorem namesPlain_tracedItem (value : String) : (tracedItem value).NamesPlain := by
  have hpairs : (tracedItem value).request.sentHeaders.pairs =
      [("Accept", "application/json"), ("X-Trace", value), ("X-Role", "user")] := rfl
  unfold Item.NamesPlain
  rw [hpairs]
  simp

theorem headers_of_part_tracedBatch :
    (tracedBatch "1").Reachable ∧ (tracedItem "1").HeadersOnLines ∧
      (headLines (lines (tracedItem "1").text)).map headerLine? =
        [some ("Accept", "application/json"), some ("X-Trace", "1"), some ("X-Role", "user")] := by
  have hlines : (tracedItem "1").HeadersOnLines := by decide +kernel
  have hmem : tracedItem "1" ∈ (tracedBatch "1").items := List.mem_singleton_self _
  have h := headers_of_part (reachable_tracedBatch "1") hmem (namesPlain_tracedItem "1") hlines
  refine ⟨reachable_tracedBatch "1", hlines, h.1.trans ?_⟩
  decide +kernel

/-- A line feed behind the value ends the head, and the role is lost. -/
theorem headers_of_fedPart :
    (tracedBatch "1\n").Reachable ∧ tracedItem "1\n" ∈ (tracedBatch "1\n").items ∧
      (tracedItem "1\n").NamesPlain ∧
      (headLines (lines (tracedItem "1\n").text)).map headerLine? ≠
        (tracedItem "1\n").request.sentHeaders.pairs.map
          fun p => some (trimmed p.1, trimmed p.2) := by
  refine ⟨reachable_tracedBatch _, List.mem_singleton_self _, namesPlain_tracedItem _, ?_⟩
  decide +kernel

end OData.Batch
