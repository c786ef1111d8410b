import OData.Failure
import OData.MediaType
import OData.Text.Blank

/-!
# Entries of multipart bodies

An entry of a batch response is a head, the headers of the part, and a payload, an HTTP response
written out: a status line, headers, a blank line and the body. `Entry.answer` reads the payload,
`Entry.contentId?` the number that says which request it answers.
-/

set_option autoImplicit false

namespace OData.Multipart

open OData.Text

/-- A part as it stands in the body, lines separated by line feeds. -/
structure Entry where
  head : String
  payload : String
  deriving DecidableEq, Repr

/-! ## Headers in text -/

/-- A name and a value around the first colon, without the blanks around them. -/
def headerLine? (line : List Char) : Option (String × String) :=
  (splitFirst ':' line).map fun (name, value) =>
    (String.ofList (trim name), String.ofList (trim value))

/-- The headers in some lines up to the first blank one. Lines without a colon are skipped. -/
def headersOf (lines : List (List Char)) : Headers :=
  .ofPairs ((lines.takeWhile (!isAllBlank ·)).filterMap headerLine?)

/-- The text that separates the parts inside a part with these headers, if it is multipart itself.
Only the parameter counts, whatever the type is. -/
def boundaryOf? (headers : Headers) : Option String :=
  ((headers.get? "Content-Type").bind MediaType.parse?).bind (·.parameter? "boundary")

/-! ## Status lines -/

def number? (s : List Char) : Option (List Char × List Char) :=
  match s.takeWhile isDecimalDigit with
  | [] => none
  | ds => some (ds, s.dropWhile isDecimalDigit)

/-- The code and the reason of a status line, such as `HTTP/1.1 200 OK`. -/
def statusLine? (line : List Char) : Option (List Char × List Char) := do
  let rest ← dropPrefix? "HTTP/".toList line
  let (_, rest) ← number? rest
  let rest ← dropPrefix? ['.'] rest
  let (_, rest) ← number? rest
  let rest ← dropPrefix? [' '] rest
  let code := rest.take 3
  if code.length = 3 ∧ code.all isDecimalDigit then
    some (code, (rest.drop 3).dropWhile isBlank)
  else none

/-! ## Entries -/

namespace Entry

/-- The number of the request that the entry answers: a header of the part, or else one of the
response inside it. -/
def contentId? (e : Entry) : Option Nat :=
  let inHead := (headersOf (lines e.head.toList)).get? "Content-ID"
  let inPayload := (headersOf ((lines e.payload.toList).drop 1)).get? "Content-ID"
  (inHead.or inPayload).bind fun s => readUnsigned (UInt32.size - 1) (trim s.toList)

/-- The content type of an answer: the given one, with a charset added if it names none, or JSON. -/
def contentType (headers : Headers) : String :=
  match headers.get? "Content-Type" with
  | some s => if occursIn "charset".toList (lower s).toList then s else s ++ "; charset=UTF-8"
  | none => "application/json; charset=UTF-8"

/-- The HTTP response in the payload. Blank lines before the status line are skipped, and line
endings at the end of the body do not belong to it. -/
def answer (e : Entry) : Except Failure Answer :=
  let ls := (lines e.payload.toList).dropWhile isAllBlank
  let line := ls.headD []
  match statusLine? (trimEnd line) with
  | none => .error (.unreadable (.badStatusLine (String.ofList line)))
  | some (code, reason) =>
    match readDigits 0 code with
    | none => .error (.unreadable (.badStatusCode (String.ofList line)))
    | some status =>
      let rest := ls.drop 1
      let headers := headersOf rest
      let body := joinWith ['\n'] ((rest.dropWhile (!isAllBlank ·)).drop 1)
      let body := dropEndWhile (fun c => c == '\r' || c == '\n') body
      .ok
        { status := status
          reason := String.ofList reason
          headers := headers.insert "Content-Type" (contentType headers)
          body := some (.ofBytes (Utf8.encode body)) }

end Entry

end OData.Multipart
