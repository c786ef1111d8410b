import OData.Proofs.Multipart.Lines
import OData.Proofs.Multipart.Walk

/-!
# Documents

A body as it is meant to be written: a preamble, parts with a delimiter line before each of them, a
closing delimiter, and whatever comes after it. A part is an entry or a changeset, which has a
preamble, entries and a closing delimiter of its own and then more lines up to the next delimiter of
the document. **The reader finds in such a body the parts that were written**
(`collect_of_written`), whatever the preambles, epilogues and line endings are.

The one invariant is what follows the position of the reader. Between two parts it is
`afterDelimiter` of the parts that are left; inside a changeset it is `afterDelimiter` of the entries
that are left, and behind them the same for the parts.
-/

set_option autoImplicit false

namespace OData.Multipart

open OData.Text Reading

/-! ## Documents as lines -/

/-- A line that separates nothing at the level of this boundary. -/
def Foreign (boundary line : List Char) : Prop :=
  line ≠ delimiterOf boundary ∧ line ≠ delimiterOf boundary ++ ['-', '-']

instance (boundary line : List Char) : Decidable (Foreign boundary line) :=
  inferInstanceAs (Decidable (_ ∧ _))

/-- Blocks of lines with a delimiter before each of them, and the closing delimiter. -/
def framed (boundary : List Char) (blocks : List (List (List Char))) : List (List Char) :=
  blocks.flatMap (delimiterOf boundary :: ·) ++ [delimiterOf boundary ++ ['-', '-']]

def boundaryIn? (head : List (List Char)) : Option String :=
  boundaryOf? (headersOf (lines (joinWith ['\n'] head)))

structure EntryLines where
  head : List (List Char)
  payload : List (List Char)
  deriving DecidableEq, Repr

namespace EntryLines

def lines (e : EntryLines) : List (List Char) := e.head ++ [] :: e.payload

def entry (e : EntryLines) : Entry := ⟨textOf e.head, textOf e.payload⟩

/-- The head has no empty line, and the payload no delimiter of the level that the entry is on. -/
def WellFormed (boundary : List Char) (e : EntryLines) : Prop :=
  (∀ l ∈ e.head, l ≠ []) ∧ ∀ l ∈ e.payload, Foreign boundary l

instance (boundary : List Char) (e : EntryLines) : Decidable (e.WellFormed boundary) :=
  inferInstanceAs (Decidable (_ ∧ _))

end EntryLines

inductive PartLines where
  | single (e : EntryLines)
  | changeset (head : List (List Char)) (inner : String) (preamble : List (List Char))
      (entries : List EntryLines) (epilogue : List (List Char))
  deriving DecidableEq, Repr

namespace PartLines

def lines : PartLines → List (List Char)
  | single e => e.lines
  | changeset head inner preamble entries epilogue =>
    head ++ [] :: (preamble ++ (framed inner.toList (entries.map EntryLines.lines) ++ epilogue))

def read : PartLines → PartRead
  | single e => ⟨false, [e.entry]⟩
  | changeset _ _ _ entries _ => ⟨true, entries.map EntryLines.entry⟩

/-- The head says which kind of part it is, and no line is a delimiter of the level that reads
it. The lines after a changeset are read at the level of the document. -/
def WellFormed (boundary : List Char) : PartLines → Prop
  | single e => e.WellFormed boundary ∧ boundaryIn? e.head = none
  | changeset head inner preamble entries epilogue =>
    (∀ l ∈ head, l ≠ []) ∧ boundaryIn? head = some inner ∧
      (∀ l ∈ preamble, Foreign inner.toList l) ∧ (∀ e ∈ entries, e.WellFormed inner.toList) ∧
      ∀ l ∈ epilogue, Foreign boundary l

instance (boundary : List Char) : (p : PartLines) → Decidable (p.WellFormed boundary)
  | single e => inferInstanceAs (Decidable (e.WellFormed boundary ∧ _))
  | changeset _ _ _ _ _ => inferInstanceAs (Decidable (_ ∧ _ ∧ _ ∧ _ ∧ _))

end PartLines

/-- A well-formed document up to its closing delimiter. -/
structure Document where
  boundary : String
  preamble : List (List Char)
  parts : List PartLines
  foreign : ∀ l ∈ preamble, Foreign boundary.toList l
  wellFormed : ∀ p ∈ parts, p.WellFormed boundary.toList

def Document.lines (d : Document) : List (List Char) :=
  d.preamble ++ framed d.boundary.toList (d.parts.map PartLines.lines)

def Document.entries (d : Document) : List (List Entry) := d.parts.map (·.read.entries)

/-! ## Where a block ends -/

/-- What follows the delimiter line that the framed blocks begin with. -/
def afterDelimiter (boundary : List Char) : List (List (List Char)) → List (List Char)
  | [] => []
  | block :: blocks => block ++ framed boundary blocks

def stopBefore : List (List (List Char)) → Stop
  | [] => .terminator
  | _ :: _ => .delimiter

theorem isFinal_stopBefore (blocks : List (List (List Char))) :
    (stopBefore blocks).isFinal = blocks.isEmpty := by
  cases blocks <;> rfl

theorem untilDelimiter_append {boundary : List Char} {block tail : List (List Char)}
    (hb : ∀ l ∈ block, Foreign boundary l) {ls : List Line}
    (ht : ls.map Line.text = block ++ tail) :
    ∃ ls', ls'.map Line.text = tail ∧
      untilDelimiter boundary ls =
        (block ++ (untilDelimiter boundary ls').1, (untilDelimiter boundary ls').2) := by
  induction block generalizing ls with
  | nil => exact ⟨ls, ht, rfl⟩
  | cons t block ih =>
    obtain ⟨l, ls, rfl, rfl, hls⟩ := List.map_eq_cons_iff.mp ht
    obtain ⟨hd, hc⟩ := hb l.text (by simp)
    obtain ⟨ls', ht', hu⟩ := ih (fun l hl => hb l (by simp [hl])) hls
    refine ⟨ls', ht', ?_⟩
    rw [untilDelimiter, if_neg hd, if_neg hc, hu]
    rfl

/-- **A block ends where framed blocks begin.** -/
theorem untilDelimiter_framed {boundary : List Char} {block : List (List Char)}
    (hb : ∀ l ∈ block, Foreign boundary l) {blocks : List (List (List Char))}
    {rest : List (List Char)} {ls : List Line}
    (ht : ls.map Line.text = block ++ (framed boundary blocks ++ rest)) :
    ∃ ls', untilDelimiter boundary ls = (block, stopBefore blocks, ls') ∧
      ls'.map Line.text = afterDelimiter boundary blocks ++ rest := by
  obtain ⟨ls', ht', hu⟩ := untilDelimiter_append hb ht
  rw [hu]
  cases blocks with
  | nil =>
    -- The closing delimiter: it is longer than the other one, so that does not match first.
    obtain ⟨l, ls', rfl, hl, hr⟩ := List.map_eq_cons_iff.mp ht'
    have hne : l.text ≠ delimiterOf boundary := by simp [hl]
    refine ⟨ls', ?_, hr⟩
    rw [untilDelimiter, if_neg hne, if_pos hl, List.append_nil]
    rfl
  | cons b blocks =>
    rw [framed, List.flatMap_cons, List.append_assoc, List.cons_append, List.cons_append] at ht'
    obtain ⟨l, ls', rfl, hl, hr⟩ := List.map_eq_cons_iff.mp ht'
    refine ⟨ls', ?_, ?_⟩
    · rw [untilDelimiter, if_pos hl, List.append_nil]
      rfl
    · rw [hr, afterDelimiter, framed]
      simp only [List.append_assoc]

theorem untilEmpty_append {head tail : List (List Char)} (hh : ∀ l ∈ head, l ≠ [])
    {ls : List Line} (ht : ls.map Line.text = head ++ [] :: tail) :
    ∃ ls', untilEmpty ls = (head, true, ls') ∧ ls'.map Line.text = tail := by
  induction head generalizing ls with
  | nil =>
    obtain ⟨l, ls', rfl, hl, hr⟩ := List.map_eq_cons_iff.mp ht
    refine ⟨ls', ?_, hr⟩
    rw [untilEmpty, if_pos hl]
  | cons t head ih =>
    obtain ⟨l, ls, rfl, rfl, hls⟩ := List.map_eq_cons_iff.mp ht
    obtain ⟨ls', hu, hr⟩ := ih (fun l hl => hh l (by simp [hl])) hls
    refine ⟨ls', ?_, hr⟩
    rw [untilEmpty, if_neg (hh l.text (by simp)), hu]

/-! ## Inside a document -/

/-- A reader past the preamble of a body that does not break off. -/
def Reader.within (boundary : List Char) (finished : Bool) (changeset : Option (List Char))
    (ls : List Line) : Reader :=
  ⟨boundary, ls, false, true, finished, changeset⟩

section

variable {boundary : List Char} {blocks : List (List (List Char))} {rest : List (List Char)}

theorem afterOuter_within (ls ls' : List Line) :
    afterOuter (.within boundary false none ls) (stopBefore blocks) ls' =
      .within boundary blocks.isEmpty none ls' := by
  rw [afterOuter, isFinal_stopBefore]
  rfl

/-- The entries of a changeset are read one after the other, and with the last of them the rest of
the part is passed over. -/
theorem takes_entries {inner : List Char} {e : EntryLines} {es : List EntryLines}
    (hes : ∀ e' ∈ e :: es, e'.WellFormed inner) {epilogue : List (List Char)}
    (he : ∀ l ∈ epilogue, Foreign boundary l) {ls : List Line}
    (ht : ls.map Line.text = afterDelimiter inner ((e :: es).map EntryLines.lines) ++
      (epilogue ++ (framed boundary blocks ++ rest))) :
    ∃ ls', Takes (.within boundary false (some inner) ls) .changeset
        ((e :: es).map EntryLines.entry) (.within boundary blocks.isEmpty none ls') ∧
      ls'.map Line.text = afterDelimiter boundary blocks ++ rest := by
  induction es generalizing e ls with
  | nil =>
    -- The last entry: the closing delimiter puts the reader back to the level of the document.
    obtain ⟨hhead, hpayload⟩ := hes e (by simp)
    simp only [List.map_cons, List.map_nil, afterDelimiter, EntryLines.lines, List.append_assoc,
      List.cons_append] at ht
    obtain ⟨ls₁, hh, ht₁⟩ := untilEmpty_append hhead ht
    obtain ⟨ls₂, hu, ht₂⟩ := untilDelimiter_framed hpayload ht₁
    obtain ⟨ls₃, ho, ht₃⟩ := untilDelimiter_framed he ht₂
    refine ⟨ls₃, ?_, ht₃⟩
    have hlast : on (.within boundary false (some inner) ls) nextInChangeset =
        (.ok (some e.entry), .within boundary blocks.isEmpty none ls₃) := by
      rw [← afterOuter_within ls₂ ls₃]
      exact on_nextInChangeset_final rfl rfl hh hu rfl ho
    have hend : on (.within boundary blocks.isEmpty none ls₃) nextInChangeset = _ :=
      on_nextInChangeset_none rfl
    exact .cons (on_next_changeset hlast) (.nil (on_next_changeset hend))
  | cons e' es ih =>
    -- Another entry follows, and the reader stays in the changeset.
    obtain ⟨hhead, hpayload⟩ := hes e (by simp)
    rw [List.map_cons, afterDelimiter, EntryLines.lines, List.append_assoc, List.append_assoc,
      List.cons_append] at ht
    obtain ⟨ls₁, hh, ht₁⟩ := untilEmpty_append hhead ht
    obtain ⟨ls₂, hu, ht₂⟩ := untilDelimiter_framed hpayload ht₁
    obtain ⟨ls₃, htakes, ht₃⟩ := ih (fun x hx => hes x (List.mem_cons_of_mem e hx)) ht₂
    have hnext := on_nextInChangeset_delimiter (r := .within boundary false (some inner) ls) rfl rfl
      hh hu
    exact ⟨ls₃, .cons (on_next_changeset hnext) htakes, ht₃⟩

/-- **One part.** Its entries are read, and the reader stands before what is left. -/
theorem on_nextPart_within {p : PartLines} (hp : p.WellFormed boundary) {ls : List Line}
    (ht : ls.map Line.text = p.lines ++ (framed boundary blocks ++ rest)) :
    ∃ q r' ls', on (.within boundary false none ls) nextPart = (.ok (some q), r') ∧
      q.isChangeset = p.read.changeset ∧
      Takes r' q p.read.entries (.within boundary blocks.isEmpty none ls') ∧
      ls'.map Line.text = afterDelimiter boundary blocks ++ rest := by
  cases p with
  | single e =>
    obtain ⟨⟨hhead, hpayload⟩, hb⟩ := hp
    rw [PartLines.lines, EntryLines.lines, List.append_assoc, List.cons_append] at ht
    obtain ⟨ls₁, hh, ht₁⟩ := untilEmpty_append hhead ht
    obtain ⟨ls₂, hu, ht₂⟩ := untilDelimiter_framed hpayload ht₁
    have hunder := on_partUnder_single (r := .within boundary false none ls₁) rfl hb hu
    rw [afterOuter_within] at hunder
    have hnext := on_nextPart_head (r := .within boundary false none ls) rfl rfl rfl rfl hh hunder
    exact ⟨_, _, ls₂, hnext, rfl, takes_single _ _, ht₂⟩
  | changeset head inner preamble entries epilogue =>
    obtain ⟨hhead, hb, hpreamble, hentries, hepilogue⟩ := hp
    simp only [PartLines.lines, List.append_assoc, List.cons_append] at ht
    obtain ⟨ls₁, hh, ht₁⟩ := untilEmpty_append hhead ht
    obtain ⟨ls₂, hu, ht₂⟩ := untilDelimiter_framed hpreamble ht₁
    cases entries with
    | nil =>
      -- The closing delimiter comes first, so the reader is never inside.
      obtain ⟨ls₃, ho, ht₃⟩ := untilDelimiter_framed hepilogue ht₂
      have hunder := on_partUnder_empty (r := .within boundary false none ls₁) rfl hb hu rfl ho
      rw [afterOuter_within] at hunder
      have hend : on (.within boundary blocks.isEmpty none ls₃) nextInChangeset = _ :=
        on_nextInChangeset_none rfl
      have hnext := on_nextPart_head (r := .within boundary false none ls) rfl rfl rfl rfl hh hunder
      exact ⟨_, _, ls₃, hnext, rfl, .nil (on_next_changeset hend), ht₃⟩
    | cons e es =>
      obtain ⟨ls₃, htakes, ht₃⟩ := takes_entries hentries hepilogue ht₂
      have hunder := on_partUnder_changeset (r := .within boundary false none ls₁) rfl hb hu
      have hnext := on_nextPart_head (r := .within boundary false none ls) rfl rfl rfl rfl hh hunder
      exact ⟨_, _, ls₃, hnext, rfl, htakes, ht₃⟩

theorem reads_within {ps : List PartLines} (hps : ∀ p ∈ ps, p.WellFormed boundary)
    {ls : List Line}
    (ht : ls.map Line.text = afterDelimiter boundary (ps.map PartLines.lines) ++ rest) :
    ∃ r', Reads (.within boundary ps.isEmpty none ls) (ps.map PartLines.read) r' := by
  induction ps generalizing ls with
  | nil => exact ⟨_, .nil (on_nextPart_finished rfl rfl rfl)⟩
  | cons p ps ih =>
    rw [List.map_cons, afterDelimiter, List.append_assoc] at ht
    obtain ⟨q, r', ls', hnext, hq, htakes, ht'⟩ := on_nextPart_within (hps p (by simp)) ht
    rw [List.isEmpty_map] at htakes
    obtain ⟨r'', hreads⟩ := ih (fun p' hp' => hps p' (by simp [hp'])) ht'
    have hall := Reads.cons hnext htakes hreads
    rw [hq] at hall
    exact ⟨r'', hall⟩

end

/-! ## Whole bodies -/

/-- **The parts of a document are read from any bytes with its lines**, whatever follows them. -/
theorem reads_document (d : Document) {rest : List (List Char)} {bytes : List UInt8}
    (ht : (linesOf bytes false).map Line.text = d.lines ++ rest) :
    ∃ r', Reads (.start d.boundary bytes false) (d.parts.map PartLines.read) r' := by
  rw [Document.lines, List.append_assoc] at ht
  obtain ⟨ls, hu, hls⟩ := untilDelimiter_framed d.foreign ht
  obtain ⟨r', hreads⟩ := reads_within d.wellFormed hls
  have hstart : on (.start d.boundary bytes false) nextPart =
      on (.within d.boundary.toList d.parts.isEmpty none ls) nextPart := by
    rw [← List.isEmpty_map (f := PartLines.lines), ← afterOuter_within (linesOf bytes false) ls]
    exact on_nextPart_start rfl rfl hu
  exact ⟨r', hreads.of_on_eq hstart⟩

/-- **A body that was written as a document is read as that document**: every part in order, with
its entries in order, each with its head and payload. The endings of the lines may be mixed, and
any bytes may follow the closing delimiter. -/
theorem collect_of_written (d : Document) {ls : List WrittenLine}
    (hl : ls.map WrittenLine.text = d.lines) (epilogue : List UInt8) :
    (Reader.start d.boundary (WrittenLine.body ls ++ epilogue) false).collect = .ok d.entries := by
  have ht := texts_of_written ls epilogue
  rw [hl] at ht
  obtain ⟨r', hreads⟩ := reads_document d ht
  rw [collect_of_reads hreads, List.map_map]
  rfl

/-- One part of each kind: an entry, a changeset with an entry and one without. -/
def sampleDocument : Document where
  boundary := "b"
  preamble := ["to be skipped".toList]
  parts :=
    [.single ⟨["Content-Type: application/http".toList], ["HTTP/1.1 204 None".toList, []]⟩,
      .changeset ["Content-Type: multipart/mixed; boundary=c".toList] "c" []
        [⟨["Content-ID: 2".toList], ["--b".toList]⟩] [[]],
      .changeset ["Content-Type: multipart/mixed; boundary=c".toList] "c" [[]] [] []]
  foreign := by decide
  wellFormed := by decide +kernel

def sampleLines : List WrittenLine :=
  [.ofText "to be skipped".toList true (by decide) (by decide),
    .ofText "--b".toList false (by decide) (by decide),
    .ofText "Content-Type: application/http".toList true (by decide) (by decide),
    .ofText [] false (by decide) (by decide),
    .ofText "HTTP/1.1 204 None".toList true (by decide) (by decide),
    .ofText [] false (by decide) (by decide),
    .ofText "--b".toList true (by decide) (by decide),
    .ofText "Content-Type: multipart/mixed; boundary=c".toList false (by decide) (by decide),
    .ofText [] true (by decide) (by decide),
    .ofText "--c".toList false (by decide) (by decide),
    .ofText "Content-ID: 2".toList true (by decide) (by decide),
    .ofText [] false (by decide) (by decide),
    .ofText "--b".toList true (by decide) (by decide),
    .ofText "--c--".toList false (by decide) (by decide),
    .ofText [] true (by decide) (by decide),
    .ofText "--b".toList false (by decide) (by decide),
    .ofText "Content-Type: multipart/mixed; boundary=c".toList true (by decide) (by decide),
    .ofText [] false (by decide) (by decide),
    .ofText [] true (by decide) (by decide),
    .ofText "--c--".toList false (by decide) (by decide),
    .ofText "--b--".toList true (by decide) (by decide)]

/-- The delimiter of the document inside the changeset is part of a payload, and the bytes behind the
closing delimiter are nothing. -/
theorem collect_sampleLines :
    sampleLines.map WrittenLine.text = sampleDocument.lines ∧
      (Reader.start "b" (WrittenLine.body sampleLines ++ [0x2D, 0x2D, 0x62, 0x0A, 0xFF])
          false).collect =
        .ok [[⟨"Content-Type: application/http", "HTTP/1.1 204 None\n"⟩],
          [⟨"Content-ID: 2", "--b"⟩], []] := by
  have hl : sampleLines.map WrittenLine.text = sampleDocument.lines := by decide
  refine ⟨hl, ?_⟩
  have h := collect_of_written sampleDocument hl [0x2D, 0x2D, 0x62, 0x0A, 0xFF]
  have he : sampleDocument.entries = [[⟨"Content-Type: application/http", "HTTP/1.1 204 None\n"⟩],
      [⟨"Content-ID: 2", "--b"⟩], []] := by decide
  rwa [he] at h

end OData.Multipart
