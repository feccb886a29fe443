/-!
# Calendar dates

Dates of the Gregorian calendar, extended over all years in the supported
range. `ofDays` is the date a number of days after 1 January 1970.
-/

namespace GraphCopy

def isLeapYear (y : Int) : Bool := y % 4 == 0 && (y % 100 != 0 || y % 400 == 0)

def daysInMonth (y : Int) (m : Nat) : Nat :=
  if m = 2 then (if isLeapYear y then 29 else 28)
  else if m = 4 ∨ m = 6 ∨ m = 9 ∨ m = 11 then 30 else 31

def minYear : Int := -262143
def maxYear : Int := 262142

def IsDate (y : Int) (m d : Nat) : Prop :=
  minYear ≤ y ∧ y ≤ maxYear ∧ 1 ≤ m ∧ m ≤ 12 ∧ 1 ≤ d ∧ d ≤ daysInMonth y m

instance (y : Int) (m d : Nat) : Decidable (IsDate y m d) := by
  unfold IsDate; infer_instance

structure Date where
  year : Int
  month : Nat
  day : Nat
  valid : IsDate year month day
deriving DecidableEq

def yearText (y : Int) : String :=
  let ds := toString y.natAbs
  let padded := String.ofList (List.replicate (4 - ds.length) '0') ++ ds
  if 0 ≤ y ∧ y ≤ 9999 then padded else (if y < 0 then "-" else "+") ++ padded

def twoDigits (n : Nat) : String := (if n < 10 then "0" else "") ++ toString n

namespace Date

def of? (y : Int) (m d : Nat) : Option Date :=
  if h : IsDate y m d then some ⟨y, m, d, h⟩ else none

def epoch : Date := ⟨1970, 1, 1, by decide⟩

def text (d : Date) : String :=
  yearText d.year ++ "-" ++ twoDigits d.month ++ "-" ++ twoDigits d.day

/-- Year, month and day of the date `n` days after 1 January 1970. The calendar repeats every
146097 days; within one period years start in March, so that a leap day comes last. -/
def civil (n : Int) : Int × Nat × Nat :=
  let z := n + 719468
  let era := z / 146097
  let doe := (z % 146097).toNat
  let yoe := (doe - doe / 1460 + doe / 36524 - doe / 146096) / 365
  let doy := doe - (365 * yoe + yoe / 4 - yoe / 100)
  let mp := (5 * doy + 2) / 153
  let d := doy - (153 * mp + 2) / 5 + 1
  let m := if mp < 10 then mp + 3 else mp - 9
  (era * 400 + yoe + (if m ≤ 2 then 1 else 0), m, d)

def ofDays? (n : Int) : Option Date :=
  let (y, m, d) := civil n
  of? y m d

end Date
end GraphCopy
