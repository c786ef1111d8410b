import OData.Proofs.Batch.Reachable
import OData.Proofs.Multipart.Heads

/-!
# The written form of a batch

The body of a batch is put together from texts with an ending between each two, and read as lines.
A text may have lines of its own: values of headers and bodies of requests are whatever the caller
gave. `written` is what the reader makes of a list of such texts, and `lines_of_body` says that the
body, so read, is a document. **Reading the body of a batch gives back its parts and requests, each
with its Content-ID** (`reads_body`), as long as no line in the headers and the body of a request is
a delimiter of the level that the request stands on.
-/

set_option autoImplicit false

namespace OData.Batch

open OData.Text OData.Multipart

/-! ## Texts as lines -/

/-- The lines of texts that are ended one by one. -/
def written (ts : List String) : List (List Char) :=
  ts.flatMap fun t => lines (t.toList ++ ['\r', '\n'])

theorem written_append (ts us : List String) : written (ts ++ us) = written ts ++ written us :=
  List.flatMap_append

theorem written_cons (t : String) (ts : List String) :
    written (t :: ts) = lines (t.toList ++ ['\r', '\n']) ++ written ts := List.flatMap_cons

theorem written_line {t : String} (ht : '\n' ∉ t.toList) (ts : List String) :
    written (t :: ts) = t.toList :: written ts := by
  rw [written_cons, lines_append_crlf_of_not_mem ht, List.singleton_append]

theorem written_empty (ts : List String) : written ("" :: ts) = [] :: written ts :=
  written_line (by decide) ts

/-- Texts are joined with an ending between each two, so one more ends the last of them. -/
theorem lines_joined {ts : List String} (h : ts ≠ []) :
    lines (joinWith ['\r', '\n'] (ts.map String.toList) ++ ['\r', '\n']) = written ts := by
  rw [joinWith_append _ (by simpa using h), lines_flatMap_crlf, written, List.flatMap_map]

theorem texts_of_joined {ts : List String} (h : ts ≠ []) :
    (linesOf (Utf8.encode (joinWith ['\r', '\n'] ((ts ++ [""]).map String.toList))) false).map
      Line.text = written ts := by
  have hjoin : joinWith ['\r', '\n'] ((ts ++ [""]).map String.toList) =
      joinWith ['\r', '\n'] (ts.map String.toList) ++ ['\r'] ++ ['\n'] := by
    rw [List.append_assoc, List.singleton_append, joinWith_append _ (by simpa using h),
      List.map_append]
    exact joinWith_concat_nil _ _
  rw [hjoin, texts_of_encoded, List.append_assoc]
  exact lines_joined h

/-- Delimited parts are framed blocks with an empty line behind them. -/
theorem written_delimited {boundary : String} (hb : '\n' ∉ boundary.toList)
    (parts : List (List String)) :
    written (delimited boundary parts) = framed boundary.toList (parts.map written) ++ [[]] := by
  have hd : ("--" ++ boundary).toList = delimiterOf boundary.toList := by
    rw [String.toList_append]
    rfl
  have hc : ("--" ++ boundary ++ "--").toList = delimiterOf boundary.toList ++ ['-', '-'] := by
    rw [String.toList_append, hd]
    rfl
  have hd' : '\n' ∉ ("--" ++ boundary).toList := by
    rw [hd]
    simpa [delimiterOf] using hb
  have hc' : '\n' ∉ ("--" ++ boundary ++ "--").toList := by
    rw [hc]
    simpa [delimiterOf] using hb
  induction parts with
  | nil =>
    rw [delimited, List.flatMap_nil, List.nil_append, written_line hc', hc, written_empty]
    rfl
  | cons part parts ih =>
    rw [delimited, List.flatMap_cons, List.append_assoc, List.cons_append, written_line hd', hd,
      written_append]
    rw [delimited] at ih
    rw [ih, framed, framed, List.map_cons, List.flatMap_cons]
    simp only [List.append_assoc, List.cons_append]

/-! ## Requests and parts -/

def Item.message (i : Item) : List String := i.lines.drop 4

theorem Item.lines_eq (i : Item) :
    i.lines = ["Content-Type: application/http", "Content-Transfer-Encoding: binary",
      "Content-ID: " ++ decimal i.contentId, ""] ++ i.message := rfl

def Item.entryLines (i : Item) : EntryLines := ⟨itemHead i.contentId, written i.message⟩

def Item.entry (i : Item) : Entry where
  head := textOf (itemHead i.contentId)
  payload := String.ofList
    (plainEndings (joinWith ['\r', '\n'] (i.message.map String.toList)))

theorem Item.entry_entryLines (i : Item) : i.entryLines.entry = i.entry := by
  have hm : i.message ≠ [] := List.cons_ne_nil _ _
  have hp : joinWith ['\n'] (written i.message) =
      plainEndings (joinWith ['\r', '\n'] (i.message.map String.toList)) := by
    rw [← lines_joined hm, joinWith_lines_append_crlf]
  show (⟨textOf (itemHead i.contentId), String.ofList (joinWith ['\n'] (written i.message))⟩ :
    Entry) = _
  rw [hp, entry]

theorem Item.written_lines (i : Item) : written i.lines = i.entryLines.lines := by
  have hid : ("Content-ID: " ++ decimal i.contentId).toList =
      "Content-ID: ".toList ++ digits i.contentId := by
    rw [String.toList_append, toList_decimal]
  have hn : '\n' ∉ ("Content-ID: " ++ decimal i.contentId).toList := by
    rw [hid, List.mem_append, not_or]
    refine ⟨by simp, ?_⟩
    intro h
    exact absurd (MediaType.isTokenChar_of_mem_digits h) (by decide)
  rw [i.lines_eq, List.cons_append, List.cons_append, List.cons_append, List.cons_append,
    List.nil_append, written_line (by simp), written_line (by simp), written_line hn, hid,
    written_empty]
  rfl

theorem isTokenChar_of_mem_boundary (start : String)
    (hs : ∀ c ∈ start.toList, MediaType.isTokenChar c = true) (g : Guid) :
    ∀ c ∈ (start ++ g.render).toList, MediaType.isTokenChar c = true := by
  rw [String.toList_append]
  refine List.forall_mem_append.mpr ⟨hs, ?_⟩
  intro c hc
  exact Guid.isTokenChar_of_mem_render hc

theorem Changeset.isTokenChar_boundary (c : Changeset) :
    ∀ d ∈ c.boundary.toList, MediaType.isTokenChar d = true :=
  isTokenChar_of_mem_boundary "changeset_" (by simp [MediaType.isTokenChar]) c.id

theorem isTokenChar_boundary (b : Batch) :
    ∀ c ∈ b.boundary.toList, MediaType.isTokenChar c = true :=
  isTokenChar_of_mem_boundary "batch_" (by simp [MediaType.isTokenChar]) b.id

theorem no_feed_of_token {s : List Char} (h : ∀ c ∈ s, MediaType.isTokenChar c = true) :
    '\n' ∉ s := by
  intro hn
  exact (MediaType.ne_of_isTokenChar (h '\n' hn)).2 rfl

def Part.partLines : Part → PartLines
  | .single i => .single i.entryLines
  | .changeset c =>
    .changeset (changesetHead c.boundary) c.boundary [] (c.items.map Item.entryLines) [[]]

def Part.read : Part → PartRead
  | .single i => ⟨false, [i.entry]⟩
  | .changeset c => ⟨true, c.items.map Item.entry⟩

theorem Part.read_partLines (p : Part) : p.partLines.read = p.read := by
  cases p with
  | single i => rw [partLines, PartLines.read, i.entry_entryLines, read]
  | changeset c =>
    rw [partLines, PartLines.read, read, List.map_map]
    exact congrArg (PartRead.mk true) (List.map_congr_left fun i _ => i.entry_entryLines)

theorem Part.written_lines (p : Part) : written p.lines = p.partLines.lines := by
  cases p with
  | single i => exact i.written_lines
  | changeset c =>
    have hb := c.isTokenChar_boundary
    have hhead : ("Content-Type: multipart/mixed;boundary=" ++ c.boundary).toList =
        "Content-Type: multipart/mixed;boundary=".toList ++ c.boundary.toList :=
      String.toList_append
    have hn : '\n' ∉ ("Content-Type: multipart/mixed;boundary=" ++ c.boundary).toList := by
      rw [hhead, List.mem_append, not_or]
      exact ⟨by simp, no_feed_of_token hb⟩
    have hitems : (c.items.map Item.lines).map written =
        (c.items.map Item.entryLines).map EntryLines.lines := by
      rw [List.map_map, List.map_map]
      exact List.map_congr_left fun i _ => i.written_lines
    rw [lines, Changeset.lines, List.cons_append, List.cons_append, List.nil_append,
      written_line hn, hhead, written_empty, written_delimited (no_feed_of_token hb), hitems]
    rfl

/-- **The lines of the body**: the parts with delimiters between them, and nothing after the closing
one. -/
theorem lines_of_body (b : Batch) :
    (linesOf (Utf8.ofString b.body) false).map Line.text =
      framed b.boundary.toList ((b.parts.map Part.partLines).map PartLines.lines) := by
  have hb := no_feed_of_token b.isTokenChar_boundary
  have hparts : (b.parts.map Part.lines).map written =
      (b.parts.map Part.partLines).map PartLines.lines := by
    rw [List.map_map, List.map_map]
    exact List.map_congr_left fun p _ => p.written_lines
  -- The text behind the closing delimiter is empty, which is what ends the delimiter.
  obtain ⟨ts, hne, hts⟩ : ∃ ts, ts ≠ [] ∧
      delimited b.boundary (b.parts.map Part.lines) = ts ++ [""] := by
    refine ⟨_, ?_, (List.append_assoc _ ["--" ++ b.boundary ++ "--"] [""]).symm⟩
    simp
  have hw := written_delimited hb (b.parts.map Part.lines)
  rw [hts, written_append, hparts] at hw
  rw [Utf8.ofString, body, String.toList_ofList, hts, texts_of_joined hne]
  exact List.append_cancel_right hw

/-! ## Lines of the caller -/

def Item.headerLines (i : Item) : List String :=
  i.request.sentHeaders.pairs.map fun (name, value) => name ++ ": " ++ value

/-- No line in the headers or in the body of a request is a delimiter of this boundary. -/
def Item.Clear (boundary : String) (i : Item) : Prop :=
  ∀ t ∈ i.headerLines ++ i.request.operation.body?.toList, ∀ l ∈ Text.lines t.toList,
    Foreign boundary.toList l

instance (boundary : String) (i : Item) : Decidable (i.Clear boundary) :=
  inferInstanceAs (Decidable (∀ t ∈ _, _))

/-- A request of the batch itself is read with the boundary of the batch, one of a changeset with
that of the changeset. -/
def Part.Clear (boundary : String) : Part → Prop
  | .single i => i.Clear boundary
  | .changeset c => ∀ i ∈ c.items, i.Clear c.boundary

instance (boundary : String) : (p : Part) → Decidable (p.Clear boundary)
  | .single i => inferInstanceAs (Decidable (i.Clear boundary))
  | .changeset c => inferInstanceAs (Decidable (∀ i ∈ c.items, _))

def Clear (b : Batch) : Prop := ∀ p ∈ b.parts, p.Clear b.boundary

instance (b : Batch) : Decidable b.Clear := inferInstanceAs (Decidable (∀ p ∈ b.parts, _))

theorem foreign_nil (boundary : List Char) : Foreign boundary [] := by
  simp [Foreign, delimiterOf]

theorem foreign_cons {c : Char} (hc : c ≠ '-') (boundary s : List Char) :
    Foreign boundary (c :: s) := by
  simp [Foreign, delimiterOf, hc]

theorem name_method (m : Method) : ∃ c s, m.name.toList = c :: s ∧ c ≠ '-' ∧ '\n' ∉ c :: s := by
  cases m <;> exact ⟨_, _, rfl, by decide, by decide⟩

def Item.requestLine (i : Item) : String :=
  i.method.name ++ " " ++ i.resourcePath ++ " HTTP/1.1"

theorem Item.no_feed_requestLine {i : Item} (he : Escaped i.resourcePath.toList) :
    '\n' ∉ i.requestLine.toList := by
  obtain ⟨c, s, hm, -, hfeed⟩ := name_method i.method
  rw [← hm] at hfeed
  simp only [requestLine, String.toList_append, List.mem_append, not_or]
  exact ⟨⟨⟨hfeed, by decide⟩, he.no_feed⟩, by decide⟩

theorem Item.message_eq (i : Item) : i.message = i.requestLine ::
    (i.headerLines ++ ("" :: (i.request.operation.body?.toList ++ [""]))) := by
  show _ :: (_ ++ [""] ++ _ ++ [""]) = _
  rw [List.append_assoc, List.append_assoc]
  rfl

/-- The lines of a message are foreign where those of the caller are: the path in the request line
is escaped, and the line begins with a letter. -/
theorem Item.foreign_of_mem_written {i : Item} (he : Escaped i.resourcePath.toList)
    {boundary : String} (hc : i.Clear boundary) {l : List Char} (hl : l ∈ written i.message) :
    Foreign boundary.toList l := by
  obtain ⟨t, ht, hl⟩ := List.mem_flatMap.mp hl
  have hempty : t = "" → Foreign boundary.toList l := by
    rintro rfl
    rw [lines_append_crlf_of_not_mem (by simp), List.mem_singleton] at hl
    rw [hl]
    exact foreign_nil _
  have hcaller : t ∈ i.headerLines ++ i.request.operation.body?.toList →
      Foreign boundary.toList l := by
    intro ht
    obtain ⟨e, hlines, hnil⟩ := lines_append_crlf_eq_append t.toList
    rw [hlines] at hl
    rcases List.mem_append.mp hl with hl | hl
    · exact hc t ht l hl
    · rw [hnil l hl]
      exact foreign_nil _
  rw [i.message_eq] at ht
  simp only [List.mem_cons, List.mem_append, List.not_mem_nil, or_false] at ht
  rcases ht with rfl | ht | ht | ht | ht
  · -- The request line is one line, and it begins with the name of the method.
    rw [lines_append_crlf_of_not_mem (no_feed_requestLine he), List.mem_singleton] at hl
    obtain ⟨c, s, hm, hhyphen, -⟩ := name_method i.method
    have hline : i.requestLine.toList =
        c :: (s ++ ' ' :: (i.resourcePath.toList ++ " HTTP/1.1".toList)) := by
      simp only [requestLine, String.toList_append, hm, List.append_assoc, List.cons_append]
      rfl
    rw [hl, hline]
    exact foreign_cons hhyphen _ _
  · exact hcaller (by simp [ht])
  · exact hempty ht
  · exact hcaller (by simp [ht])
  · exact hempty ht

/-! ## Reading the body back -/

theorem Item.wellFormed {i : Item} (he : Escaped i.resourcePath.toList) {boundary : String}
    (hc : i.Clear boundary) : i.entryLines.WellFormed boundary.toList := by
  refine ⟨?_, fun l hl => foreign_of_mem_written he hc hl⟩
  intro l hl
  simp only [entryLines, itemHead, List.mem_cons, List.not_mem_nil, or_false] at hl
  rcases hl with rfl | rfl | rfl <;> simp

def document (b : Batch) (hb : b.Sound) (hc : b.Clear) : Document where
  boundary := b.boundary
  preamble := []
  parts := b.parts.map Part.partLines
  foreign := by simp
  wellFormed := by
    have hescaped : ∀ p ∈ b.parts, ∀ i ∈ p.items, Escaped i.resourcePath.toList := by
      intro p hp i hi
      exact hb.numbered.escaped i (List.mem_flatMap.mpr ⟨p, hp, hi⟩)
    intro q hq
    obtain ⟨p, hp, rfl⟩ := List.mem_map.mp hq
    have hclear := hc p hp
    cases p with
    | single i =>
      have hi : Escaped i.resourcePath.toList := hescaped _ hp i (by simp [Part.items])
      exact ⟨i.wellFormed hi hclear, boundaryIn?_itemHead _⟩
    | changeset c =>
      refine ⟨?_, boundaryIn?_changesetHead c.isTokenChar_boundary, by simp, ?_, ?_⟩
      · intro l hl
        rw [List.mem_singleton.mp hl]
        simp
      · intro e he
        obtain ⟨i, hi, rfl⟩ := List.mem_map.mp he
        exact i.wellFormed (hescaped _ hp i hi) (hclear i hi)
      · intro l hl
        rw [List.mem_singleton.mp hl]
        exact foreign_nil _

/-- **The body of a batch is read back as that batch.** Every part of it becomes one part, in the
order of the batch, a single request a part with one entry and a changeset one with an entry for
each of its requests, also where it has none; and every entry has the Content-ID of its request and
as payload the text of the request, from the request line on and with line feeds as endings. -/
theorem reads_body {b : Batch} (hb : b.Reachable) (hc : b.Clear) :
    (∃ r', Reads (.start b.boundary (Utf8.ofString b.body) false) (b.parts.map Part.read) r') ∧
      (Reader.start b.boundary (Utf8.ofString b.body) false).collect =
        .ok (b.parts.map fun p => p.items.map Item.entry) ∧
      ∀ i ∈ b.items, i.entry.contentId? = some i.contentId ∧
        i.entry.payload = String.ofList
          (plainEndings (joinWith ['\r', '\n'] ((i.lines.drop 4).map String.toList))) := by
  have hs := hb.sound
  have hreads : ∃ r', Reads (.start b.boundary (Utf8.ofString b.body) false)
      (b.parts.map Part.read) r' := by
    have hlines : (linesOf (Utf8.ofString b.body) false).map Line.text =
        (b.document hs hc).lines ++ [] := by
      rw [lines_of_body, List.append_nil]
      rfl
    have hread : (b.document hs hc).parts.map PartLines.read = b.parts.map Part.read := by
      rw [document, List.map_map]
      exact List.map_congr_left fun p _ => p.read_partLines
    rw [← hread]
    exact reads_document (b.document hs hc) hlines
  refine ⟨hreads, ?_, ?_⟩
  · obtain ⟨r', hreads⟩ := hreads
    have hentries : (b.parts.map Part.read).map PartRead.entries =
        b.parts.map fun p => p.items.map Item.entry := by
      rw [List.map_map]
      refine List.map_congr_left ?_
      intro p _
      cases p <;> rfl
    rw [collect_of_reads hreads, hentries]
  · intro i hi
    have hid : i.contentId < UInt32.size := Nat.lt_trans (hs.numbered.below i hi) hs.fits
    exact ⟨contentId?_itemHead hid _, rfl⟩

/-- The requests come back in their parts, and the empty changeset as one without entries. -/
theorem reads_sampleBatch :
    sampleBatch.Reachable ∧ sampleBatch.Clear ∧
      (Reader.start "batch_00000000-0000-0000-0000-000000000000" (Utf8.ofString sampleBatch.body)
          false).collect =
        .ok [
          [⟨"Content-Type: application/http\nContent-Transfer-Encoding: binary\nContent-ID: 1",
            "GET Set HTTP/1.1\nAccept: application/json\n\n"⟩],
          [⟨"Content-Type: application/http\nContent-Transfer-Encoding: binary\nContent-ID: 2",
            "POST Set HTTP/1.1\nAccept: application/json\nContent-Type: application/json\n\n{}\n"⟩],
          []] := by
  have hclear : sampleBatch.Clear := by decide +kernel
  refine ⟨reachable_sampleBatch, hclear, ?_⟩
  have h := (reads_body reachable_sampleBatch hclear).2.1
  have hb : sampleBatch.boundary = "batch_00000000-0000-0000-0000-000000000000" := by
    decide +kernel
  rw [hb] at h
  rw [h]
  refine congrArg Except.ok ?_
  decide +kernel

end OData.Batch
