import OData.Multipart.Entry
import OData.Response

/-!
# Reading multipart bodies

A body of parts separated by delimiter lines. A part is a single entry, or a *changeset* with
entries of its own and a delimiter of its own. The reader goes over the lines of the body once: it
gives out parts one by one, and the entries of each; entries of a changeset that are left unread are
passed over when the next part is asked for. A delimiter that is missing counts as standing at the
end of the body. If the stream breaks off, no line is given out that may have been cut.
-/

set_option autoImplicit false

namespace OData.Multipart

open OData.Text

/-! ## Lines -/

/-- A line without its ending, and the number of bytes it takes up. -/
structure Line where
  text : List Char
  size : Nat
  deriving DecidableEq, Repr

/-- The line in some bytes, which may end in a line feed. A carriage return before the ending, or
at the end, does not belong to the line. -/
def Line.ofBytes (bytes : List UInt8) : Line :=
  ⟨Utf8.lossy (dropLastIf 0x0D (dropLastIf 0x0A bytes)), bytes.length⟩

/-- The lines of a stream. Of a stream that breaks off, a line that has no ending is left out. -/
def linesOf (bytes : List UInt8) (breaksOff : Bool) : List Line :=
  let pieces := segments (· == 0x0A) bytes
  let whole :=
    if breaksOff then pieces.filter (·.getLast? == some 0x0A) else pieces
  whole.map Line.ofBytes

/-! ## Blocks of lines -/

inductive Stop where
  | delimiter
  | terminator
  | exhausted
  deriving DecidableEq, Repr

def Stop.isFinal : Stop → Bool
  | delimiter => false
  | terminator | exhausted => true

def delimiterOf (boundary : List Char) : List Char := '-' :: '-' :: boundary

/-- The lines up to a delimiter, how they ended, and what follows. -/
def untilDelimiter (boundary : List Char) : List Line → List (List Char) × Stop × List Line
  | [] => ([], .exhausted, [])
  | l :: r =>
    if l.text = delimiterOf boundary then ([], .delimiter, r)
    else if l.text = delimiterOf boundary ++ ['-', '-'] then ([], .terminator, r)
    else
      let (ls, stop, rest) := untilDelimiter boundary r
      (l.text :: ls, stop, rest)

/-- The lines up to an empty one, whether there is one, and what follows. -/
def untilEmpty : List Line → List (List Char) × Bool × List Line
  | [] => ([], false, [])
  | l :: r =>
    if l.text = [] then ([], true, r)
    else
      let (ls, found, rest) := untilEmpty r
      (l.text :: ls, found, rest)

def textOf (ls : List (List Char)) : String := String.ofList (joinWith ['\n'] ls)

/-! ## The reader -/

structure Reader where
  boundary : List Char
  lines : List Line
  broken : Bool
  /-- Whether the text before the first part has been passed over. -/
  started : Bool
  finished : Bool
  /-- The boundary of the changeset that the reader is in. -/
  changeset : Option (List Char)
  deriving DecidableEq, Repr

structure Broken where
  deriving DecidableEq, Repr

def Broken.failure : Failure := .connection .readingParts .broken

/-- What is read from a body: it may meet the end of a broken stream. -/
abbrev Reading (α : Type) := ExceptT Broken (StateM Reader) α

namespace Reader

def start (boundary : String) (bytes : List UInt8) (breaksOff : Bool) : Reader :=
  { boundary := boundary.toList
    lines := linesOf bytes breaksOff
    broken := breaksOff
    started := false
    finished := false
    changeset := none }

end Reader

namespace Reading

/-- Leaves `rest` to be read, where the lines did not run out on a broken stream. -/
def goOn (ranOut : Bool) (rest : List Line) : Reading Unit := do
  let r ← get
  set { r with lines := rest }
  if ranOut && r.broken then throw ⟨⟩

def block (boundary : List Char) : Reading (List (List Char) × Stop) := do
  let (ls, stop, rest) := untilDelimiter boundary (← get).lines
  goOn (stop == .exhausted) rest
  return (ls, stop)

/-- The lines of the batch itself up to its next delimiter. -/
def outerBlock : Reading (List (List Char)) := do
  let (ls, stop) ← block (← get).boundary
  if stop.isFinal then modify fun r => { r with finished := true }
  return ls

def head : Reading (List (List Char) × Bool) := do
  let (ls, found, rest) := untilEmpty (← get).lines
  goOn (!found) rest
  return (ls, found)

def nextInChangeset : Reading (Option Entry) := do
  match (← get).changeset with
  | none => return none
  | some boundary =>
    let (top, _) ← head
    let (payload, stop) ← block boundary
    if stop.isFinal then
      -- What follows up to the next delimiter of the batch belongs to neither level.
      modify fun r => { r with changeset := none }
      discard outerBlock
    return some ⟨textOf top, textOf payload⟩

/-- Passes over what is left of the changeset that the reader is in, if it is in one. A changeset
has at most one entry for every line, and one more. -/
def skipChangeset : Nat → Reading Unit
  | 0 => return ()
  | n + 1 => do
    match ← nextInChangeset with
    | none => return ()
    | some _ => skipChangeset n

end Reading

/-- A part of the body: a single entry until it is taken, or a changeset. -/
inductive Part where
  | single (entry : Option Entry)
  | changeset
  deriving DecidableEq, Repr

def Part.isChangeset : Part → Bool
  | .single _ => false
  | .changeset => true

namespace Reading

/-- The part under a head. A changeset without entries is passed over at once. -/
def partUnder (top : List (List Char)) : Reading Part := do
  match boundaryOf? (headersOf (lines (joinWith ['\n'] top))) with
  | some inner =>
    let (_, stop) ← block inner.toList
    if stop.isFinal then discard outerBlock
    else modify fun r => { r with changeset := some inner.toList }
    return .changeset
  | none =>
    let payload ← outerBlock
    return .single (some ⟨textOf top, textOf payload⟩)

def skipPreamble : Reading Unit := do
  if !(← get).started then
    modify fun r => { r with started := true }
    discard outerBlock

def nextPart : Reading (Option Part) := do
  skipPreamble
  skipChangeset ((← get).lines.length + 2)
  if (← get).finished then return none
  let (top, found) ← head
  -- A head that runs into the end of the body counts if it has lines.
  if !found then modify fun r => { r with finished := true }
  if !found && top.isEmpty then return none
  return some (← partUnder top)

end Reading

def Part.next : Part → Reading (Option Entry × Part)
  | .single entry => return (entry, .single none)
  | .changeset => return (← Reading.nextInChangeset, .changeset)

/-! ## Walking over a whole body -/

inductive Ending where
  | enough
  | noMore
  | broken
  deriving DecidableEq, Repr

def Part.take (p : Part) : Nat → StateM Reader (List Entry × Ending)
  | 0 => return ([], .enough)
  | n + 1 => do
    match ← p.next.run with
    | .error _ => return ([], .broken)
    | .ok (none, _) => return ([], .noMore)
    | .ok (some e, p) =>
      let (es, ending) ← p.take n
      return (e :: es, ending)

/-- More than the number of entries that a part can have. -/
def Reader.entryBound (r : Reader) : Nat := r.lines.length + 2

structure Walk where
  /-- The entries of each part. The last part may be incomplete. -/
  parts : List (List Entry)
  broke : Bool
  deriving DecidableEq, Repr

def walk : Nat → StateM Reader Walk
  | 0 => return ⟨[], false⟩
  | n + 1 => do
    match ← Reading.nextPart.run with
    | .error _ => return ⟨[], true⟩
    | .ok none => return ⟨[], false⟩
    | .ok (some p) =>
      let (es, ending) ← p.take (← get).entryBound
      if ending == .broken then return ⟨[es], true⟩
      else
        let rest ← walk n
        return { rest with parts := es :: rest.parts }

namespace Reader

/-- All parts with all their entries, and the reader afterwards. A body has at most one part for
every line. -/
def walkAll (r : Reader) : Walk × Reader := (walk (r.lines.length + 1)).run r

/-- The entries of every part. -/
def collect (r : Reader) : Except Broken (List (List Entry)) :=
  let (w, _) := r.walkAll
  if w.broke then .error ⟨⟩ else .ok w.parts

/-- The number of bytes that the unread lines take up. -/
def unreadSize (r : Reader) : Nat := r.lines.foldr (fun l n => l.size + n) 0

end Reader

end OData.Multipart

/-! ## Multipart responses -/

namespace OData.Access

open OData.Multipart

/-- The content is pulled in blocks of this size. -/
def blockSize : Nat := 8192

/-- The parts of a multipart response, as far as it could be read. -/
def walkParts : Access Walk := do
  match boundaryOf? (← get).headers with
  | none => throw (.unreadable .noBoundary)
  | some boundary =>
    let s ← source
    let reader := Reader.start boundary s.rest s.breaksOff
    let (w, rest) := reader.walkAll
    -- A stream is known to have broken off once all of it has been pulled.
    let used := if w.broke then s.rest.length else reader.unreadSize - rest.unreadSize
    pull s (s.inBlocks blockSize used)
    return w

def parts : Access (List (List Entry)) := do
  let w ← walkParts
  if w.broke then throw Broken.failure else return w.parts

end OData.Access
