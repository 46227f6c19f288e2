/-!
# Time stamps

A moment is a date of the calendar and a time of day down to the microsecond. Its stamp names
it down to the millisecond: every field has a fixed width and a larger field stands before a
smaller one, so stamps sort like moments.
-/

set_option autoImplicit false

namespace CrateAnalysis

/-- A date and a time of day. -/
structure Moment where
  year : Nat
  month : Nat
  day : Nat
  hour : Nat
  minute : Nat
  second : Nat
  microsecond : Nat
deriving DecidableEq

/-- Why some numbers are no moment. -/
inductive MomentFault
  | year (found : Int)
  | month
  | day
  | hour
  | minute
  | second
  | microsecond
deriving DecidableEq

/-- The text of a fault. -/
def MomentFault.message : MomentFault → String
  | year found => "year " ++ toString found ++ " is out of range"
  | month => "month must be in 1..12"
  | day => "day is out of range for month"
  | hour => "hour must be in 0..23"
  | minute => "minute must be in 0..59"
  | second => "second must be in 0..59"
  | microsecond => "microsecond must be in 0..999999"

namespace Moment

/-- Whether a year has a day more than others. -/
def isLeap (year : Nat) : Bool :=
  year % 4 = 0 && (year % 100 ≠ 0 || year % 400 = 0)

/-- The number of days of a month. -/
def daysIn (year month : Nat) : Nat :=
  if month = 2 then (if isLeap year then 29 else 28)
  else if month = 4 ∨ month = 6 ∨ month = 9 ∨ month = 11 then 30
  else 31

/-- The fields of a moment are a date of the calendar and a time of day. -/
def Valid (m : Moment) : Prop :=
  1 ≤ m.year ∧ m.year ≤ 9999 ∧ 1 ≤ m.month ∧ m.month ≤ 12 ∧
    1 ≤ m.day ∧ m.day ≤ daysIn m.year m.month ∧
    m.hour < 24 ∧ m.minute < 60 ∧ m.second < 60 ∧ m.microsecond < 1000000

/-- The moment of some numbers, or the first field that is out of its range. -/
def ofFields (year month day hour minute second microsecond : Int) :
    Except MomentFault Moment :=
  if year < 1 ∨ 9999 < year then .error (.year year)
  else if month < 1 ∨ 12 < month then .error .month
  else if day < 1 ∨ daysIn year.toNat month.toNat < day then .error .day
  else if hour < 0 ∨ 23 < hour then .error .hour
  else if minute < 0 ∨ 59 < minute then .error .minute
  else if second < 0 ∨ 59 < second then .error .second
  else if microsecond < 0 ∨ 999999 < microsecond then .error .microsecond
  else .ok ⟨year.toNat, month.toNat, day.toNat, hour.toNat, minute.toNat, second.toNat,
    microsecond.toNat⟩

/-- A number in decimal with at least `width` digits. -/
def padded (width n : Nat) : List Char :=
  let digits := Nat.toDigits 10 n
  List.replicate (width - digits.length) '0' ++ digits

/-- The stamp of a moment, for example `2024-05-01_13-45-10-123`. -/
def stamp (m : Moment) : String :=
  String.ofList (padded 4 m.year ++ '-' :: padded 2 m.month ++ '-' :: padded 2 m.day ++
    '_' :: padded 2 m.hour ++ '-' :: padded 2 m.minute ++ '-' :: padded 2 m.second ++
    '-' :: padded 3 (m.microsecond / 1000))

end Moment

end CrateAnalysis
