import Mathlib.Data.List.Basic
import OData.Proofs.Multipart.HeaderLines
import OData.Proofs.Multipart.Payload
import OData.Proofs.Text.Endings

/-!
# Responses in payloads

A response is written as a status line, a line for each header, a blank line and its body, behind
blank lines or none, and each line has the ending it likes. **From such a payload the response is
read back** (`Entry.answer_of_written`): status, reason and body as they are, and the headers in
their order with the values of one name together, but for the type of the content. That is one
value, which always has a charset (`ContentTypeOf`).
-/

set_option autoImplicit false

namespace OData.Multipart

open OData.Text

/-! ## Types of contents -/

/-- The word stands somewhere in the text, in whatever case. -/
def MentionsCharset (value : String) : Prop :=
  ∃ before word after, value.toList = before ++ word ++ after ∧
    word.map Char.toLower = "charset".toList

/-- The type of the content of a response with these headers: the first that is given, with a
charset added if it does not mention one, or JSON if none is given. -/
inductive ContentTypeOf (headers : List (String × String)) : String → Prop
  | given {p : String × String} : headers.find? (sameName "Content-Type" ·.1) = some p →
      MentionsCharset p.2 → ContentTypeOf headers p.2
  | completed {p : String × String} : headers.find? (sameName "Content-Type" ·.1) = some p →
      ¬ MentionsCharset p.2 → ContentTypeOf headers (p.2 ++ "; charset=UTF-8")
  | standard : headers.find? (sameName "Content-Type" ·.1) = none →
      ContentTypeOf headers "application/json; charset=UTF-8"

theorem occursIn_iff {α : Type} [DecidableEq α] {needle hay : List α} :
    occursIn needle hay = true ↔ needle <:+: hay := by
  induction hay with
  | nil => simp [occursIn]
  | cons a r ih =>
    rw [occursIn, Bool.or_eq_true, List.isPrefixOf_iff_prefix, ih, List.infix_cons_iff]

theorem mentionsCharset_iff {value : String} :
    MentionsCharset value ↔ occursIn "charset".toList (lower value).toList = true := by
  have hlower : (lower value).toList = value.toList.map Char.toLower := String.toList_ofList
  rw [occursIn_iff, hlower]
  constructor
  · rintro ⟨before, word, after, hvalue, hword⟩
    rw [hvalue, List.map_append, List.map_append, hword]
    exact List.infix_append _ _ _
  · rintro ⟨before, after, h⟩
    obtain ⟨front, back, hvalue, hfront, -⟩ := List.map_eq_append_iff.mp h.symm
    obtain ⟨start, word, rfl, -, hword⟩ := List.map_eq_append_iff.mp hfront
    exact ⟨start, word, back, hvalue, hword⟩

theorem contentTypeOf_contentType (headers : List (String × String)) :
    ContentTypeOf headers (Entry.contentType (.ofPairs headers)) := by
  unfold Entry.contentType
  rw [Headers.get?_ofPairs]
  cases hp : headers.find? (sameName "Content-Type" ·.1) with
  | none => exact .standard hp
  | some p =>
    dsimp only [Option.map_some]
    split
    · next h => exact .given hp (mentionsCharset_iff.mpr h)
    · next h => exact .completed hp (fun hm => h (mentionsCharset_iff.mp hm))

/-! ## Written responses -/

/-- A text that fills a line and has no blanks around it. -/
def IsLine (s : String) : Prop := trimmed s = s ∧ '\n' ∉ s.toList

instance (s : String) : Decidable (IsLine s) := inferInstanceAs (Decidable (_ ∧ _))

/-- A response that can be written on lines. -/
structure WrittenResponse where
  status : Nat
  reason : String
  headers : List (String × String)
  body : String
  status_lt : status < 1000
  isLine_reason : IsLine reason
  isLine_name : ∀ p ∈ headers, IsLine p.1 ∧ ':' ∉ p.1.toList
  isLine_value : ∀ p ∈ headers, IsLine p.2
  no_return : '\r' ∉ body.toList
  no_feed_at_end : body.toList.getLast? ≠ some '\n'

namespace WrittenResponse

def statusLine (r : WrittenResponse) : List Char :=
  "HTTP/1.1 ".toList ++ (paddedDigits 3 r.status ++ ' ' :: r.reason.toList)

def headerLines (r : WrittenResponse) : List (List Char) :=
  r.headers.map fun (name, value) => (name ++ ": " ++ value).toList

/-- The lines of the response, with blank ones in front, and one between the headers and the
body. -/
def lines (r : WrittenResponse) (blanks : List (List Char)) (gap : List Char) : List (List Char) :=
  blanks ++ r.statusLine :: (r.headerLines ++ gap :: splitOn '\n' r.body.toList)

end WrittenResponse

/-! ## The status line -/

theorem statusLine?_version (rest : List Char) :
    statusLine? ("HTTP/1.1 ".toList ++ rest) =
      if (rest.take 3).length = 3 ∧ (rest.take 3).all isDecimalDigit then
        some (rest.take 3, (rest.drop 3).dropWhile isBlank)
      else none :=
  rfl

/-- A code of three digits and a reason, however many blanks there are between them. -/
theorem statusLine?_append {code blanks reason : List Char} (hlength : code.length = 3)
    (hcode : ∀ c ∈ code, isDecimalDigit c = true) (hblanks : ∀ c ∈ blanks, isBlank c = true)
    (hreason : IsTrimmed reason) :
    statusLine? ("HTTP/1.1 ".toList ++ (code ++ (blanks ++ reason))) = some (code, reason) := by
  have htake : (code ++ (blanks ++ reason)).take 3 = code := by
    rw [← hlength, List.take_left]
  have hdrop : (code ++ (blanks ++ reason)).drop 3 = blanks ++ reason := by
    rw [← hlength, List.drop_left]
  rw [statusLine?_version, htake, hdrop, if_pos ⟨hlength, List.all_eq_true.mpr hcode⟩,
    List.dropWhile_append_of_pos hblanks, dropWhile_of_isTrimmed hreason]

/-- At its end a status line without a reason loses the blank behind the code. -/
theorem statusLine?_trimEnd {code reason : List Char} (hlength : code.length = 3)
    (hcode : ∀ c ∈ code, c ∈ "0123456789".toList) (hreason : IsTrimmed reason) :
    statusLine? (trimEnd ("HTTP/1.1 ".toList ++ (code ++ ' ' :: reason))) =
      some (code, reason) := by
  have hdigit : ∀ c ∈ code, isDecimalDigit c = true := by
    intro c hc
    exact isDecimalDigit_of_mem (hcode c hc)
  cases reason with
  | nil =>
    have hne : code ≠ [] := List.ne_nil_of_length_pos (by omega)
    have hcut : trimEnd ("HTTP/1.1 ".toList ++ (code ++ [' '])) = "HTTP/1.1 ".toList ++ code := by
      rw [← List.append_assoc, trimEnd, dropEndWhile_append _ (by simp [isBlank])]
      exact trimEnd_append_of_isTrimmed _ hne (isTrimmed_of_numerals hcode)
    have hread : statusLine? ("HTTP/1.1 ".toList ++ (code ++ ([] ++ []))) = some (code, []) :=
      statusLine?_append hlength hdigit (by simp) hreason
    rwa [List.append_nil, List.append_nil, ← hcut] at hread
  | cons c r =>
    have hsplit : "HTTP/1.1 ".toList ++ (code ++ ' ' :: c :: r) =
        ("HTTP/1.1 ".toList ++ (code ++ [' '])) ++ c :: r := by simp
    rw [hsplit, trimEnd_append_of_isTrimmed _ (by simp) hreason, ← hsplit]
    have hblank : ∀ d ∈ [' '], isBlank d = true := by simp [isBlank]
    exact statusLine?_append hlength hdigit hblank hreason

/-! ## The lines of a written response -/

namespace WrittenResponse

variable (r : WrittenResponse)

theorem statusLine?_statusLine :
    statusLine? (trimEnd r.statusLine) = some (paddedDigits 3 r.status, r.reason.toList) :=
  statusLine?_trimEnd (length_paddedDigits (by decide) r.status_lt) (fun _ => mem_paddedDigits)
    (isTrimmed_of_trimmed r.isLine_reason.1)

variable {r}

theorem isAllBlank_of_mem_headerLines {l : List Char} (h : l ∈ r.headerLines) :
    isAllBlank l = false := by
  obtain ⟨p, -, rfl⟩ := List.mem_map.mp h
  exact isAllBlank_of_mem (c := ':') (by simp) (by decide)

variable (r)

theorem filterMap_headerLines : r.headerLines.filterMap headerLine? = r.headers := by
  rw [headerLines, List.filterMap_map]
  refine (List.filterMap_congr ?_).trans List.filterMap_some
  intro p hp
  obtain ⟨hname, hcolon⟩ := r.isLine_name p hp
  refine (headerLine?_pair hcolon p.2).trans ?_
  rw [hname.1, (r.isLine_value p hp).1]

/-! ### Writing them

No line of a response has lines of its own, nor ends in half an ending. -/

theorem single_append {s t : List Char} (hs : '\n' ∉ s) (ht : '\n' ∉ t) (htrimmed : IsTrimmed t) :
    '\n' ∉ s ++ ' ' :: t ∧ (s ++ ' ' :: t).getLast? ≠ some '\r' := by
  constructor
  · simp [hs, ht]
  · cases t with
    | nil => simp
    | cons c t =>
      have hlast : (s ++ ' ' :: c :: t).getLast? = (c :: t).getLast? := by
        rw [List.getLast?_append, List.getLast?_cons_cons, Option.or_of_isSome (by simp)]
      rw [hlast]
      intro hreturn
      exact absurd (htrimmed.2 '\r' hreturn) (by decide)

theorem single_statusLine : '\n' ∉ r.statusLine ∧ r.statusLine.getLast? ≠ some '\r' := by
  have hcode : '\n' ∉ paddedDigits 3 r.status := by
    intro h
    have hdigit := mem_paddedDigits h
    simp at hdigit
  have htext : r.statusLine =
      ("HTTP/1.1 ".toList ++ paddedDigits 3 r.status) ++ ' ' :: r.reason.toList :=
    (List.append_assoc _ _ _).symm
  have hfront : '\n' ∉ "HTTP/1.1 ".toList ++ paddedDigits 3 r.status := by
    rw [List.mem_append, not_or]
    exact ⟨by simp, hcode⟩
  rw [htext]
  exact single_append hfront r.isLine_reason.2 (isTrimmed_of_trimmed r.isLine_reason.1)

theorem single_headerLine {l : List Char} (h : l ∈ r.headerLines) :
    '\n' ∉ l ∧ l.getLast? ≠ some '\r' := by
  obtain ⟨p, hp, rfl⟩ := List.mem_map.mp h
  have htext : (p.1 ++ ": " ++ p.2).toList = (p.1.toList ++ [':']) ++ ' ' :: p.2.toList := by
    simp
  dsimp only
  rw [htext]
  refine single_append ?_ (r.isLine_value p hp).2 (isTrimmed_of_trimmed (r.isLine_value p hp).1)
  simp [(r.isLine_name p hp).1.2]

theorem single_bodyLine {l : List Char} (h : l ∈ splitOn '\n' r.body.toList) :
    '\n' ∉ l ∧ l.getLast? ≠ some '\r' := by
  obtain ⟨hfeed, hsubset⟩ := mem_splitOn h
  refine ⟨hfeed, ?_⟩
  intro hlast
  exact r.no_return (hsubset (List.mem_of_getLast? hlast))

/-- So every response can be written, with either ending. -/
theorem onLines_joinWith_lines {ending : List Char}
    (hending : ending = ['\n'] ∨ ending = ['\r', '\n']) {blanks : List (List Char)}
    {gap : List Char} (hblanks : ∀ l ∈ gap :: blanks, '\n' ∉ l ∧ l.getLast? ≠ some '\r') :
    OnLines (r.lines blanks gap) (joinWith ending (r.lines blanks gap)) := by
  obtain ⟨hgap, hfront⟩ := List.forall_mem_cons.mp hblanks
  refine onLines_joinWith hending ?_
  intro l hl
  rcases List.mem_append.mp hl with hl | hl
  · exact hfront l hl
  rcases List.mem_cons.mp hl with rfl | hl
  · exact r.single_statusLine
  rcases List.mem_append.mp hl with hl | hl
  · exact r.single_headerLine hl
  rcases List.mem_cons.mp hl with rfl | hl
  · exact hgap
  · exact r.single_bodyLine hl

end WrittenResponse

/-! ## Reading -/

namespace Entry

/-- What is read from a payload of which the lines are known. -/
theorem answer_of_lines {e : Entry} {blanks heads rest : List (List Char)}
    {line gap code reason : List Char} {status : Nat}
    (hlines : lines e.payload.toList = blanks ++ line :: (heads ++ gap :: rest))
    (hblanks : ∀ l ∈ blanks, isAllBlank l = true)
    (hline : statusLine? (trimEnd line) = some (code, reason))
    (hstatus : readDigits 0 code = some status) (hheads : ∀ l ∈ heads, isAllBlank l = false)
    (hgap : isAllBlank gap = true) :
    e.answer = .ok
      { status := status
        reason := String.ofList reason
        headers := (Headers.ofPairs (heads.filterMap headerLine?)).insert "Content-Type"
          (contentType (.ofPairs (heads.filterMap headerLine?)))
        body := some (.ofBytes (Utf8.encode
          (dropEndWhile (fun c => c == '\r' || c == '\n') (joinWith ['\n'] rest)))) } := by
  have hfirst : isAllBlank line = false := by
    obtain ⟨version, rfl⟩ := exists_of_statusLine?_trimEnd hline
    rfl
  have hresponse :
      (lines e.payload.toList).dropWhile isAllBlank = line :: (heads ++ gap :: rest) := by
    rw [hlines, List.dropWhile_append_of_pos hblanks, List.dropWhile_cons_of_neg (by simp [hfirst])]
  have hheaders : headersOf (heads ++ gap :: rest) = .ofPairs (heads.filterMap headerLine?) :=
    headersOf_append hheads (by simpa using hgap)
  have hbody : (heads ++ gap :: rest).dropWhile (!isAllBlank ·) = gap :: rest := by
    rw [List.dropWhile_append_of_pos (by simpa using hheads),
      List.dropWhile_cons_of_neg (by simp [hgap])]
  unfold answer
  rw [hresponse]
  simp only [List.headD_cons, hline, hstatus, List.drop_one, List.tail_cons, hheaders, hbody]

/-- **A response that is written on lines is read back.** Whatever blank lines stand in front of it
and with whichever ending each line is written: the status, the reason, the headers and the body are
what was written, but for the type of the content. -/
theorem answer_of_written (r : WrittenResponse) {blanks : List (List Char)} {gap : List Char}
    (hblanks : ∀ l ∈ gap :: blanks, isAllBlank l = true) {e : Entry}
    (hpayload : OnLines (r.lines blanks gap) e.payload.toList) :
    ∃ type, ContentTypeOf r.headers type ∧ e.answer = .ok
      { status := r.status
        reason := r.reason
        headers := (Headers.ofPairs r.headers).insert "Content-Type" type
        body := some (.ofBytes (Utf8.encode r.body.toList)) } := by
  obtain ⟨hgap, hfront⟩ := List.forall_mem_cons.mp hblanks
  have hsplit : r.lines blanks gap =
      (blanks ++ r.statusLine :: (r.headerLines ++ [gap])) ++ splitOn '\n' r.body.toList := by
    simp [WrittenResponse.lines]
  rw [hsplit] at hpayload
  -- The last line of the body may be missing, if there is nothing of it.
  obtain ⟨rest, hlines, hrest⟩ := exists_of_onLines_append hpayload r.no_feed_at_end
  have hbody : ∀ c ∈ r.body.toList.getLast?, (c == '\r' || c == '\n') = false := by
    intro c hc
    have hreturn : c ≠ '\r' := by
      rintro rfl
      exact r.no_return (List.mem_of_getLast? hc)
    have hfeed : c ≠ '\n' := by
      rintro rfl
      exact r.no_feed_at_end hc
    simp [hreturn, hfeed]
  have hread := answer_of_lines (by simpa using hlines) hfront r.statusLine?_statusLine
    (readDigits_paddedDigits 3 r.status) (fun _ => WrittenResponse.isAllBlank_of_mem_headerLines)
    hgap
  rw [r.filterMap_headerLines, hrest, dropEndWhile_eq_rdropWhile,
    List.rdropWhile_eq_self_iff.mpr (forall_mem_getLast?.mp hbody), String.ofList_toList] at hread
  exact ⟨_, contentTypeOf_contentType r.headers, hread⟩

/-- A response with digits in its reason, two values of one header, a colon in one of them, and
blank lines in its body. -/
def tracedResponse : WrittenResponse where
  status := 207
  reason := "2 of 3"
  headers := [("content-type", "text/plain"), ("X-Trace", "a:1"), ("x-trace", "b")]
  body := "\nfirst\n\nlast"
  status_lt := by decide
  isLine_reason := by decide
  isLine_name := by decide
  isLine_value := by decide
  no_return := by decide
  no_feed_at_end := by decide

def tracedEntry : Entry where
  head := ""
  payload := "\r\n \r\nHTTP/1.1 207 2 of 3\r\ncontent-type: text/plain\r\nX-Trace: a:1\r\n" ++
    "x-trace: b\r\n\r\n\r\nfirst\r\n\r\nlast"

theorem answer_of_written_tracedResponse :
    (∀ l ∈ [[], [], [' ']], isAllBlank l = true) ∧
      OnLines (tracedResponse.lines [[], [' ']] []) tracedEntry.payload.toList ∧
      ∃ type, ContentTypeOf tracedResponse.headers type ∧ tracedEntry.answer = .ok
        { status := 207
          reason := "2 of 3"
          headers := ⟨[⟨"content-type", [type]⟩, ⟨"X-Trace", ["a:1", "b"]⟩]⟩
          body := some (.ofBytes (Utf8.encode "\nfirst\n\nlast".toList)) } := by
  have hblanks : ∀ l ∈ [[], [], [' ']], isAllBlank l = true := by decide
  have htext : joinWith ['\r', '\n'] (tracedResponse.lines [[], [' ']] []) =
      tracedEntry.payload.toList := by decide +kernel
  have hpayload : OnLines (tracedResponse.lines [[], [' ']] []) tracedEntry.payload.toList := by
    rw [← htext]
    exact tracedResponse.onLines_joinWith_lines (.inr rfl) (by decide)
  obtain ⟨type, htype, hanswer⟩ := answer_of_written tracedResponse hblanks hpayload
  exact ⟨hblanks, hpayload, type, htype, hanswer⟩

end Entry

end OData.Multipart
