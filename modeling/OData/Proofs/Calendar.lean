import OData.Calendar
import OData.Proofs.Duration

/-!
# Dates and times read back

The texts of dates and times have fields of fixed width, so nothing in them can be taken for
something else. **A date of the years 0 to 9999 and a time of day are read as they were written**
(`Date.run_scan_text`, `TimeOfDay.run_scan_text`). An offset is read in hours and minutes, with the
seconds if there are any; written it has none, so **what is read is the offset without the part of it
below a minute** (`Offset.run_scan_text`).

Days are counted from the first of January of the year 0 (`Date.dayNumber`), and an instant is the
number of nanoseconds since then at the meridian (`OffsetDateTime.instant`).
-/

set_option autoImplicit false

namespace OData

open OData.Text

/-! ## Dates and times of day -/

def Date.scan : Scanner Date := do
  let year ← Scanner.digits 4
  Scanner.char '-'
  let month ← Scanner.digits 2
  Scanner.char '-'
  let day ← Scanner.digits 2
  Scanner.check (Date.of? year month day)

def TimeOfDay.scan : Scanner TimeOfDay := do
  let hour ← Scanner.digits 2
  Scanner.char ':'
  let minute ← Scanner.digits 2
  Scanner.char ':'
  let second ← Scanner.digits 2
  let nanos ← Scanner.fraction
  Scanner.check (TimeOfDay.of? hour minute second nanos)

def DateTime.scan : Scanner DateTime := do
  let date ← Date.scan
  Scanner.char 'T'
  let time ← TimeOfDay.scan
  return ⟨date, time⟩

theorem Date.of?_eq (d : Date) : Date.of? d.year d.month d.day = some d := by
  unfold of?
  rw [dif_pos d.year_bound, dif_pos d.month_bound, dif_pos d.day_bound]

theorem TimeOfDay.of?_eq (t : TimeOfDay) :
    TimeOfDay.of? t.hour t.minute t.second t.nanos = some t := by
  unfold of?
  rw [dif_pos t.hour_lt, dif_pos t.minute_lt, dif_pos t.second_lt, dif_pos t.nanos_lt]

theorem daysInMonth_le (year : Int) (month : Nat) : daysInMonth year month ≤ 31 := by
  unfold daysInMonth
  repeat' split
  all_goals decide

/-- **A date of the years 0 to 9999 is read as it was written.** -/
theorem Date.run_scan_text {d : Date} (h : 0 ≤ d.year) (r : List Char) :
    Date.scan.run (d.text ++ r) = some (d, r) := by
  have hyear : d.year.natAbs < Nat.pow 10 4 := Nat.lt_succ_of_le d.year_bound
  have hmonth : d.month < Nat.pow 10 2 := Nat.lt_of_le_of_lt d.month_bound.2 (by decide)
  have hday : d.day < Nat.pow 10 2 :=
    Nat.lt_of_le_of_lt (Nat.le_trans d.day_bound.2 (daysInMonth_le _ _)) (by decide)
  have hvalue : ((d.year.natAbs : Nat) : Int) = d.year := Int.natAbs_of_nonneg h
  unfold scan text paddedSigned
  rw [if_neg (Int.not_lt.mpr h)]
  simp only [List.append_assoc, List.cons_append]
  rw [Scanner.run_bind_of (Scanner.digits_append (by decide) hyear _),
    Scanner.run_bind_of (Scanner.char_cons '-' _),
    Scanner.run_bind_of (Scanner.digits_append (by decide) hmonth _),
    Scanner.run_bind_of (Scanner.char_cons '-' _),
    Scanner.run_bind_of (Scanner.digits_append (by decide) hday _), hvalue, d.of?_eq]
  rfl

/-- **A time of day is read as it was written**, to the nanosecond. -/
theorem TimeOfDay.run_scan_text (t : TimeOfDay) {r : List Char} (hr : EndsNumber r) :
    TimeOfDay.scan.run (t.text ++ r) = some (t, r) := by
  have hhour : t.hour < Nat.pow 10 2 := Nat.lt_trans t.hour_lt (by decide)
  have hminute : t.minute < Nat.pow 10 2 := Nat.lt_trans t.minute_lt (by decide)
  have hsecond : t.second < Nat.pow 10 2 := Nat.lt_trans t.second_lt (by decide)
  unfold scan text
  simp only [List.append_assoc, List.cons_append]
  rw [Scanner.run_bind_of (Scanner.digits_append (by decide) hhour _),
    Scanner.run_bind_of (Scanner.char_cons ':' _),
    Scanner.run_bind_of (Scanner.digits_append (by decide) hminute _),
    Scanner.run_bind_of (Scanner.char_cons ':' _),
    Scanner.run_bind_of (Scanner.digits_append (by decide) hsecond _),
    Scanner.run_bind_of (Scanner.fraction_append t.nanos_lt hr), t.of?_eq]
  rfl

theorem DateTime.run_scan_text {d : DateTime} (h : 0 ≤ d.date.year) {r : List Char}
    (hr : EndsNumber r) : DateTime.scan.run (d.text ++ r) = some (d, r) := by
  unfold scan text
  rw [List.append_assoc, List.cons_append, Scanner.run_bind_of (Date.run_scan_text h _),
    Scanner.run_bind_of (Scanner.char_cons 'T' _),
    Scanner.run_bind_of (d.time.run_scan_text hr)]
  rfl

/-- The time of day so many nanoseconds after midnight, if it is one of the same day. -/
def TimeOfDay.after? (nanos : Int) : Option TimeOfDay :=
  let seconds := nanos / nanosPerSecond
  TimeOfDay.of? (seconds / 3600).toNat (seconds / 60 % 60).toNat (seconds % 60).toNat
    (nanos % nanosPerSecond).toNat

/-- A time of day is known by how long after midnight it is. -/
theorem TimeOfDay.after?_sinceMidnight (t : TimeOfDay) :
    TimeOfDay.after? t.sinceMidnight.nanos = some t := by
  have hminute := t.minute_lt
  have hsecond := t.second_lt
  have hnanos := t.nanos_lt
  have hof := t.of?_eq
  unfold after? sinceMidnight
  dsimp only
  simp only [nanosPerSecond] at hnanos ⊢
  convert hof using 2 <;> omega

/-! ## Offsets -/

/-- The parts of an offset, in seconds. Seconds are read if there are any. -/
def Offset.scanParts : Scanner Nat := do
  let hours ← Scanner.digits 2
  Scanner.char ':'
  let minutes ← Scanner.digits 2
  let seconds ← (do Scanner.char ':'; Scanner.digits 2) <|> pure 0
  return hours * 3600 + minutes * 60 + seconds

def Offset.scanSign : Scanner Int := fun
  | '+' :: r => some (1, r)
  | '-' :: r => some (-1, r)
  | _ => none

def Offset.scan : Scanner Offset :=
  (do Scanner.char 'Z'; Scanner.check (Offset.of? 0))
    <|> (do
      let sign ← scanSign
      let n ← scanParts
      Scanner.check (Offset.of? (sign * n)))

/-- What is left of a minute, with the sign of the offset. -/
def Offset.belowMinute (o : Offset) : Int :=
  if o.seconds < 0 then -(-o.seconds % 60) else o.seconds % 60

/-- The offset in hours and minutes. -/
def Offset.inMinutes (o : Offset) : Offset where
  seconds := o.seconds - o.belowMinute
  bound := by
    have hbound := o.bound
    unfold belowMinute
    split <;> omega

theorem Offset.belowMinute_eq_zero_iff (o : Offset) : o.belowMinute = 0 ↔ o.seconds % 60 = 0 := by
  unfold belowMinute
  split <;> omega

theorem Offset.of?_seconds (o : Offset) : Offset.of? o.seconds = some o := dif_pos o.bound

theorem Offset.run_scanParts {hours minutes : Nat} (hh : hours < 100) (hm : minutes < 100)
    {r : List Char} (hr : ':' ∉ r.head?) :
    scanParts.run (paddedDigits 2 hours ++ ':' :: (paddedDigits 2 minutes ++ r)) =
      some (hours * 3600 + minutes * 60, r) := by
  have hseconds : (do Scanner.char ':'; Scanner.digits 2 : Scanner Nat).run r = none := by
    refine Scanner.run_bind_none ?_
    cases r with
    | nil => rfl
    | cons c r => exact if_neg fun hc => hr (congrArg some hc)
  unfold scanParts
  rw [Scanner.run_bind_of (Scanner.digits_append (by decide) hh _),
    Scanner.run_bind_of (Scanner.char_cons ':' _),
    Scanner.run_bind_of (Scanner.digits_append (by decide) hm _),
    Scanner.run_bind_of (Scanner.run_orElse_none hseconds), Scanner.run_pure_eq, Nat.add_zero]

/-- **An offset is read without the part of it below a minute.** -/
theorem Offset.run_scan_text (o : Offset) {r : List Char} (hr : ':' ∉ r.head?) :
    Offset.scan.run (o.text ++ r) = some (o.inMinutes, r) := by
  have hbound := o.bound
  have hof := o.inMinutes.of?_seconds
  unfold text
  split
  · next hzero =>
    have hsame : o.inMinutes.seconds = 0 := by
      show o.seconds - o.belowMinute = 0
      rw [o.belowMinute_eq_zero_iff.mpr (by rw [hzero]; rfl), hzero]
      rfl
    rw [hsame] at hof
    refine Scanner.run_orElse_of ?_
    show (Scanner.check (Offset.of? 0)).run r = _
    rw [hof]
    rfl
  · have hsign : ∀ s, scanSign.run ((if o.seconds < 0 then '-' else '+') :: s) =
        some (if o.seconds < 0 then -1 else 1, s) := by
      intro s
      split <;> rfl
    have hnoZone : ∀ s,
        (Scanner.char 'Z').run ((if o.seconds < 0 then '-' else '+') :: s) = none := by
      intro s
      split <;> rfl
    have hvalue : o.inMinutes.seconds = (if o.seconds < 0 then -1 else 1) *
        ((o.seconds.natAbs / 3600 * 3600 + o.seconds.natAbs / 60 % 60 * 60 : Nat) : Int) := by
      show o.seconds - o.belowMinute = _
      unfold belowMinute
      split <;> omega
    have hparts := run_scanParts (by omega : o.seconds.natAbs / 3600 < 100)
      (by omega : o.seconds.natAbs / 60 % 60 < 100) hr
    rw [hvalue] at hof
    dsimp only
    simp only [List.append_assoc, List.cons_append]
    refine (Scanner.run_orElse_none (Scanner.run_bind_none (hnoZone _))).trans ?_
    rw [Scanner.run_bind_of (hsign _), Scanner.run_bind_of hparts, hof]
    rfl

/-- The same local time with the offset in hours and minutes. -/
def OffsetDateTime.inMinutes (d : OffsetDateTime) : OffsetDateTime := ⟨d.atPlace, d.offset.inMinutes⟩

def OffsetDateTime.scan : Scanner OffsetDateTime := do
  let atPlace ← DateTime.scan
  let offset ← Offset.scan
  return ⟨atPlace, offset⟩

theorem Offset.endsNumber_text (o : Offset) (r : List Char) : EndsNumber (o.text ++ r) := by
  unfold text
  split
  · exact .cons (by decide) _
  · dsimp only
    split
    · exact .cons (by decide) _
    · exact .cons (by decide) _

theorem OffsetDateTime.run_scan_text {d : OffsetDateTime} (h : 0 ≤ d.atPlace.date.year)
    {r : List Char} (hr : ':' ∉ r.head?) :
    OffsetDateTime.scan.run (d.text ++ r) = some (d.inMinutes, r) := by
  unfold scan text
  rw [List.append_assoc, Scanner.run_bind_of (DateTime.run_scan_text h (d.offset.endsNumber_text r)),
    Scanner.run_bind_of (d.offset.run_scan_text hr)]
  rfl

/-! ## Instants -/

/-- The days of the years from 0 up to this one. -/
def daysBeforeYear (year : Int) : Int :=
  365 * year + ((year + 3) / 4 - (year + 99) / 100 + (year + 399) / 400)

/-- A year has 365 days, or 366 as a leap year. -/
theorem daysBeforeYear_succ (year : Int) :
    daysBeforeYear (year + 1) = daysBeforeYear year + if isLeapYear year then 366 else 365 := by
  unfold daysBeforeYear isLeapYear
  simp only [Bool.and_eq_true, Bool.or_eq_true, beq_iff_eq, bne_iff_ne]
  split <;> omega

/-- The days of the months before this one. -/
def daysBeforeMonth (year : Int) : Nat → Nat
  | 0 | 1 => 0
  | month + 2 => daysBeforeMonth year (month + 1) + daysInMonth year (month + 1)

/-- The days from the first of January of the year 0 up to the date. -/
def Date.dayNumber (d : Date) : Int :=
  daysBeforeYear d.year + daysBeforeMonth d.year d.month + (d.day - 1)

/-- The nanoseconds from the first of January of the year 0, midnight at the meridian. -/
def OffsetDateTime.instant (d : OffsetDateTime) : Int :=
  (d.atPlace.date.dayNumber * 86400 - d.offset.seconds) * nanosPerSecond
    + d.atPlace.time.sinceMidnight.nanos

/-- The instant is missed by what is left of a minute. -/
theorem OffsetDateTime.instant_inMinutes (d : OffsetDateTime) :
    d.inMinutes.instant = d.instant + d.offset.belowMinute * nanosPerSecond := by
  show (d.atPlace.date.dayNumber * 86400 - (d.offset.seconds - d.offset.belowMinute)) *
    nanosPerSecond + d.atPlace.time.sinceMidnight.nanos = _
  simp only [instant, nanosPerSecond]
  omega

theorem OffsetDateTime.instant_inMinutes_eq_iff (d : OffsetDateTime) :
    d.inMinutes.instant = d.instant ↔ d.offset.seconds % 60 = 0 := by
  rw [← d.offset.belowMinute_eq_zero_iff, d.instant_inMinutes]
  simp only [nanosPerSecond]
  omega

end OData
