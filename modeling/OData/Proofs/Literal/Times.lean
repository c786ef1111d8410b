import OData.Literal
import OData.Proofs.Calendar
import OData.Text.Ascii

/-!
# Dates and times in literals

The older version of the protocol writes a date as the midnight that it begins with and a time of day
as the duration since midnight; the newer one writes both as they are. **Either way a local value is
read as it was written, so two values of one type have two texts** (`Literal.local_of_render`).

With an offset it is not so. **What is read is the same local time, at an instant that is off by the
part of the offset below a minute** (`Literal.instant_of_render`), since that part is not written:
two literals of different instants can have one text (`Literal.instants_of_sameText`).
-/

set_option autoImplicit false

namespace OData

open OData.Text

namespace Literal

/-! ## Reading literals -/

/-- The text between the quotes behind a word. -/
def unmarked? (word : String) (s : List Char) : Option (List Char) :=
  (dropPrefix? (word.toList ++ ['\'']) s).bind fun r =>
    if r.getLast? = some '\'' then some r.dropLast else none

theorem unmarked?_marked (word : String) (body : List Char) :
    unmarked? word (marked word body) = some body := by
  have hopen : dropPrefix? (word.toList ++ ['\'']) (marked word body) = some (body ++ ['\'']) := by
    refine dropPrefix?_eq_some_iff.mpr ?_
    simp only [marked, List.append_assoc, List.cons_append, List.nil_append]
  unfold unmarked?
  rw [hopen, Option.bind_some, if_pos List.getLast?_concat, List.dropLast_concat]

/-- A date is read from the midnight that it begins with. -/
def readDate? (p : Protocol) (s : List Char) : Option Date :=
  match p with
  | .v2 => ((unmarked? "datetime" s).bind DateTime.scan.whole).bind fun d =>
    if d.time.sinceMidnight.nanos = 0 then some d.date else none
  | .v4 => Date.scan.whole s

def readTimeOfDay? (p : Protocol) (s : List Char) : Option TimeOfDay :=
  match p with
  | .v2 => ((unmarked? "time" s).bind Duration.read?).bind TimeOfDay.after?
  | .v4 => TimeOfDay.scan.whole s

/-- A local date and time, which the newer version marks with a `Z`. -/
def readDateTime? (p : Protocol) (s : List Char) : Option DateTime :=
  match p with
  | .v2 => (unmarked? "datetime" s).bind DateTime.scan.whole
  | .v4 => (do let d ← DateTime.scan; Scanner.char 'Z'; return d : Scanner DateTime).whole s

def readOffsetDateTime? (p : Protocol) (s : List Char) : Option OffsetDateTime :=
  match p with
  | .v2 => (unmarked? "datetimeoffset" s).bind OffsetDateTime.scan.whole
  | .v4 => OffsetDateTime.scan.whole s

/-! ## What is read of what is written -/

theorem whole_text_date {d : Date} (h : 0 ≤ d.year) : Date.scan.whole d.text = some d := by
  have hrun := Date.run_scan_text h []
  rw [List.append_nil] at hrun
  exact Scanner.whole_of_run hrun

theorem whole_text_timeOfDay (t : TimeOfDay) : TimeOfDay.scan.whole t.text = some t := by
  have hrun := t.run_scan_text .nil
  rw [List.append_nil] at hrun
  exact Scanner.whole_of_run hrun

theorem whole_text_dateTime {d : DateTime} (h : 0 ≤ d.date.year) :
    DateTime.scan.whole d.text = some d := by
  have hrun := DateTime.run_scan_text h .nil
  rw [List.append_nil] at hrun
  exact Scanner.whole_of_run hrun

def midnight : TimeOfDay := ⟨0, 0, 0, 0, by decide, by decide, by decide, by decide⟩

theorem text_midnight : midnight.text = "00:00:00".toList := by
  have hzero : paddedDigits 2 0 = ['0', '0'] := by
    rw [paddedDigits, digits]
    rfl
  unfold TimeOfDay.text midnight
  rw [hzero]
  rfl

theorem sinceMidnight_midnight : midnight.sinceMidnight.nanos = 0 := by
  simp [midnight, TimeOfDay.sinceMidnight]

theorem readDate?_chars {d : Date} (h : 0 ≤ d.year) (p : Protocol) :
    readDate? p ((date d).chars p) = some d := by
  cases p with
  | v2 =>
    have hbody : d.text ++ "T00:00:00".toList = (DateTime.mk d midnight).text := by
      rw [DateTime.text, text_midnight]
      rfl
    have hwhole := whole_text_dateTime (d := ⟨d, midnight⟩) h
    unfold readDate? chars
    dsimp only
    rw [hbody, unmarked?_marked, Option.bind_some, hwhole, Option.bind_some,
      if_pos sinceMidnight_midnight]
  | v4 => exact whole_text_date h

theorem readTimeOfDay?_chars (t : TimeOfDay) (p : Protocol) :
    readTimeOfDay? p ((timeOfDay t).chars p) = some t := by
  cases p with
  | v2 =>
    have hbound : t.sinceMidnight.nanos.natAbs < secondsBound * nanosPerSecond := by
      have hhour := t.hour_lt
      have hminute := t.minute_lt
      have hsecond := t.second_lt
      have hnanos := t.nanos_lt
      simp only [TimeOfDay.sinceMidnight, nanosPerSecond, secondsBound] at hnanos ⊢
      omega
    unfold readTimeOfDay? chars
    dsimp only
    rw [unmarked?_marked, Option.bind_some, Duration.read?_iso hbound, Option.bind_some,
      t.after?_sinceMidnight]
  | v4 => exact whole_text_timeOfDay t

theorem readDateTime?_chars {d : DateTime} (h : 0 ≤ d.date.year) (p : Protocol) :
    readDateTime? p ((dateTime d).chars p) = some d := by
  cases p with
  | v2 =>
    unfold readDateTime? chars
    dsimp only
    rw [unmarked?_marked, Option.bind_some, whole_text_dateTime h]
  | v4 =>
    have hrun := DateTime.run_scan_text h (EndsNumber.cons (c := 'Z') (by decide) [])
    refine Scanner.whole_of_run ?_
    show _ = some (d, [])
    unfold chars
    dsimp only
    rw [Scanner.run_bind_of hrun, Scanner.run_bind_of (Scanner.char_cons 'Z' [])]
    rfl

/-- An offset date and time is read with its offset in hours and minutes. -/
theorem readOffsetDateTime?_chars {d : OffsetDateTime} (h : 0 ≤ d.atPlace.date.year)
    (p : Protocol) :
    readOffsetDateTime? p ((dateTimeOffset d).chars p) = some d.inMinutes := by
  have hrun := OffsetDateTime.run_scan_text (r := []) h (fun hc => nomatch hc)
  rw [List.append_nil] at hrun
  cases p with
  | v2 =>
    unfold readOffsetDateTime? chars
    dsimp only
    rw [unmarked?_marked, Option.bind_some, Scanner.whole_of_run hrun]
  | v4 => exact Scanner.whole_of_run hrun

theorem toList_render (p : Protocol) (l : Literal) : (l.render p).toList = l.chars p :=
  String.toList_ofList

/-! ## Local values -/

inductive LocalType where
  | date
  | timeOfDay
  | dateTime
  deriving DecidableEq

/-- The literals of a local date, a time of day or both, in the years 0 to 9999. -/
inductive IsLocal : LocalType → Literal → Prop where
  | date {d : Date} (h : 0 ≤ d.year) : IsLocal .date (.date d)
  | timeOfDay (t : TimeOfDay) : IsLocal .timeOfDay (.timeOfDay t)
  | dateTime {d : DateTime} (h : 0 ≤ d.date.year) : IsLocal .dateTime (.dateTime d)

def readLocal? (p : Protocol) (type : LocalType) (s : String) : Option Literal :=
  match type with
  | .date => (readDate? p s.toList).map .date
  | .timeOfDay => (readTimeOfDay? p s.toList).map .timeOfDay
  | .dateTime => (readDateTime? p s.toList).map .dateTime

theorem readLocal?_render {type : LocalType} {l : Literal} (h : l.IsLocal type) (p : Protocol) :
    readLocal? p type (l.render p) = some l := by
  unfold readLocal?
  rw [toList_render]
  cases h with
  | date h => exact congrArg (Option.map Literal.date) (readDate?_chars h p)
  | timeOfDay t => exact congrArg (Option.map Literal.timeOfDay) (readTimeOfDay?_chars t p)
  | dateTime h => exact congrArg (Option.map Literal.dateTime) (readDateTime?_chars h p)

/-- **A local value is read as it was written, so no other value of its type is written like it.** -/
theorem local_of_render {type : LocalType} {l : Literal} (h : l.IsLocal type) (p : Protocol) :
    readLocal? p type (l.render p) = some l ∧
      ∀ l' : Literal, l'.IsLocal type → l'.render p = l.render p → l' = l := by
  refine ⟨readLocal?_render h p, ?_⟩
  intro l' h' hsame
  have hread := readLocal?_render h p
  rw [← hsame, readLocal?_render h' p] at hread
  exact Option.some.inj hread

/-- Eight o'clock and seventy nanoseconds. -/
def breakfast : TimeOfDay := ⟨8, 0, 0, 70, by decide, by decide, by decide, by decide⟩

/-- Minutes and seconds are left out of the duration, but not the zeros in front of the fraction. -/
theorem local_of_render_breakfast :
    (timeOfDay breakfast).IsLocal .timeOfDay ∧
    (timeOfDay breakfast).render .v2 = "time'PT8H0.00000007S'" ∧
    readLocal? .v2 .timeOfDay ((timeOfDay breakfast).render .v2) = some (timeOfDay breakfast) :=
  ⟨.timeOfDay _, by decide +kernel, (local_of_render (.timeOfDay breakfast) .v2).1⟩

/-! ## Values with an offset -/

/-- **What is read is the local time as it was written, and the instant as far as the offset is in
hours and minutes.** -/
theorem instant_of_render {d : OffsetDateTime} (h : 0 ≤ d.atPlace.date.year) (p : Protocol) :
    ∃ e, readOffsetDateTime? p ((dateTimeOffset d).render p).toList = some e ∧
      e.atPlace = d.atPlace ∧
      e.instant = d.instant + d.offset.belowMinute * nanosPerSecond ∧
      (e.instant = d.instant ↔ d.offset.seconds % 60 = 0) := by
  refine ⟨d.inMinutes, ?_, rfl, d.instant_inMinutes, d.instant_inMinutes_eq_iff⟩
  rw [toList_render]
  exact readOffsetDateTime?_chars h p

def christmas : Date := ⟨2019, 12, 25, by decide, by decide, by decide⟩

/-- The breakfast of a place whose clocks are so many seconds ahead. -/
def breakfastAhead (seconds : Int) (bound : seconds.natAbs < 26 * 3600) : OffsetDateTime :=
  ⟨⟨christmas, breakfast⟩, ⟨seconds, bound⟩⟩

/-- An hour and a half behind, as a whole number of minutes. -/
theorem instant_of_render_behind :
    0 ≤ christmas.year ∧
    (dateTimeOffset (breakfastAhead (-5400) (by decide))).render .v4 =
      "2019-12-25T08:00:00.00000007-01:30" ∧
    ∃ e, readOffsetDateTime? .v4
        ((dateTimeOffset (breakfastAhead (-5400) (by decide))).render .v4).toList = some e ∧
      e.instant = (breakfastAhead (-5400) (by decide)).instant := by
  obtain ⟨e, hread, -, -, hsame⟩ :=
    instant_of_render (d := breakfastAhead (-5400) (by decide)) (by decide) .v4
  exact ⟨by decide, by decide +kernel, e, hread, hsame.mpr (by decide)⟩

/-- Half a minute ahead, a quarter of a minute ahead and the hour itself are three instants. The
first two have one text, and it is read as the third. -/
theorem instants_of_sameText :
    (∀ p, (dateTimeOffset (breakfastAhead 30 (by decide))).render p =
      (dateTimeOffset (breakfastAhead 15 (by decide))).render p) ∧
    (breakfastAhead 30 (by decide)).instant ≠ (breakfastAhead 15 (by decide)).instant ∧
    ∀ p, ∃ e, readOffsetDateTime? p
        ((dateTimeOffset (breakfastAhead 30 (by decide))).render p).toList = some e ∧
      e.instant ≠ (breakfastAhead 30 (by decide)).instant := by
  have htext : ∀ p, (dateTimeOffset (breakfastAhead 30 (by decide))).render p =
      (dateTimeOffset (breakfastAhead 15 (by decide))).render p := by
    intro p
    cases p with
    | _ => decide +kernel
  refine ⟨htext, by decide, fun p => ?_⟩
  refine ⟨(breakfastAhead 30 (by decide)).inMinutes, ?_, ?_⟩
  · rw [toList_render]
    exact readOffsetDateTime?_chars (show 0 ≤ christmas.year by decide) p
  · exact mt (OffsetDateTime.instant_inMinutes_eq_iff _).mp (by decide)

end Literal

end OData
