import OData.Duration

/-!
# Dates and times of day

Calendar values as literals carry them: a date of the proleptic Gregorian calendar, a time of day
to the nanosecond, the two together, and the two together with an offset from UTC. Each type holds
only values that exist, so printing needs no checks. The texts are those of ISO 8601; an offset is
written in hours and minutes, and `Z` stands for no offset.
-/

set_option autoImplicit false

namespace OData

open OData.Text

/-! ## Values -/

def isLeapYear (year : Int) : Bool :=
  year % 4 == 0 && (year % 100 != 0 || year % 400 == 0)

def daysInMonth (year : Int) (month : Nat) : Nat :=
  if month = 2 then (if isLeapYear year then 29 else 28)
  else if month = 4 ∨ month = 6 ∨ month = 9 ∨ month = 11 then 30
  else 31

structure Date where
  year : Int
  month : Nat
  day : Nat
  year_bound : year.natAbs ≤ 9999
  month_bound : 1 ≤ month ∧ month ≤ 12
  day_bound : 1 ≤ day ∧ day ≤ daysInMonth year month
  deriving DecidableEq, Repr

/-- A time of day, without leap seconds. -/
structure TimeOfDay where
  hour : Nat
  minute : Nat
  second : Nat
  nanos : Nat
  hour_lt : hour < 24
  minute_lt : minute < 60
  second_lt : second < 60
  nanos_lt : nanos < nanosPerSecond
  deriving DecidableEq, Repr

structure DateTime where
  date : Date
  time : TimeOfDay
  deriving DecidableEq, Repr

/-- How far local time is ahead of UTC, in seconds; less than 26 hours either way. -/
structure Offset where
  seconds : Int
  bound : seconds.natAbs < 26 * 3600
  deriving DecidableEq, Repr

structure OffsetDateTime where
  atPlace : DateTime
  offset : Offset
  deriving DecidableEq, Repr

/-! ## Making values -/

def Date.of? (year : Int) (month day : Nat) : Option Date :=
  if hy : year.natAbs ≤ 9999 then
    if hm : 1 ≤ month ∧ month ≤ 12 then
      if hd : 1 ≤ day ∧ day ≤ daysInMonth year month then some ⟨year, month, day, hy, hm, hd⟩
      else none
    else none
  else none

/-- The time of day of an hour, minute, second and nanosecond, if there is one. -/
def TimeOfDay.of? (hour minute second nanos : Nat) : Option TimeOfDay :=
  if hh : hour < 24 then
    if hm : minute < 60 then
      if hs : second < 60 then
        if hn : nanos < nanosPerSecond then some ⟨hour, minute, second, nanos, hh, hm, hs, hn⟩
        else none
      else none
    else none
  else none

def Offset.of? (seconds : Int) : Option Offset :=
  if h : seconds.natAbs < 26 * 3600 then some ⟨seconds, h⟩ else none

def TimeOfDay.sinceMidnight (t : TimeOfDay) : Duration :=
  { nanos := ((t.hour * 3600 + t.minute * 60 + t.second) * nanosPerSecond + t.nanos : Nat)
    above := by simp only [nanosPerSecond, secondsBound]; omega
    below := by
      have := t.hour_lt; have := t.minute_lt; have := t.second_lt; have := t.nanos_lt
      simp only [nanosPerSecond, secondsBound] at *; omega }

/-! ## Texts -/

/-- A numeral padded to `width` characters, the minus sign included. -/
def paddedSigned (width : Nat) (i : Int) : List Char :=
  if i < 0 then '-' :: paddedDigits (width - 1) i.natAbs else paddedDigits width i.natAbs

/-- Such as `2019-12-25`. -/
def Date.text (d : Date) : List Char :=
  paddedSigned 4 d.year ++ '-' :: paddedDigits 2 d.month ++ '-' :: paddedDigits 2 d.day

/-- Such as `08:15:30` and `08:15:30.25`. -/
def TimeOfDay.text (t : TimeOfDay) : List Char :=
  paddedDigits 2 t.hour ++ ':' :: paddedDigits 2 t.minute ++ ':' :: paddedDigits 2 t.second
    ++ fractionText t.nanos

/-- Such as `2019-12-25T08:00:00`. -/
def DateTime.text (d : DateTime) : List Char := d.date.text ++ 'T' :: d.time.text

/-- `Z`, or a sign, hours and minutes; what is left of a minute is not written. -/
def Offset.text (o : Offset) : List Char :=
  if o.seconds = 0 then ['Z']
  else
    let total := o.seconds.natAbs
    (if o.seconds < 0 then '-' else '+') ::
      paddedDigits 2 (total / 3600) ++ ':' :: paddedDigits 2 (total / 60 % 60)

/-- Such as `2019-12-25T08:00:00.5+01:30`. -/
def OffsetDateTime.text (d : OffsetDateTime) : List Char := d.atPlace.text ++ d.offset.text

end OData
