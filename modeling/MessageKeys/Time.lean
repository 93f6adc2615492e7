import MessageKeys.Text.Basic

/-!
# Time stamps

A moment is counted in nanoseconds since the beginning of 1970 and written as a date and a time of
day in UTC: `2026-03-01T09:05:00.25Z`, the fraction of a second without zeros at its end and left
out if it is zero.
-/
namespace MessageKeys

structure Moment where
  nanoseconds : Nat
  deriving DecidableEq, Repr

/-- How time goes by: the nanoseconds that have passed after so many calls of a service. -/
class Pace where
  elapsed : Nat → Nat

/-- Where nothing is said of it, each call takes a nanosecond. -/
instance : Pace where
  elapsed calls := calls

namespace Moment

structure Date where
  year : Nat
  month : Nat
  day : Nat
  deriving DecidableEq, Repr

/-- The date that lies `days` days after the first of January 1970. Years are taken to begin in
March, so that the leap day is the last of its year and a month's first day is a linear function
of the month. -/
def dateOfDays (days : Nat) : Date :=
  let shifted := days + 719468
  let era := shifted / 146097
  let dayOfEra := shifted % 146097
  let yearOfEra := (dayOfEra - dayOfEra / 1460 + dayOfEra / 36524 - dayOfEra / 146096) / 365
  let dayOfYear := dayOfEra - (365 * yearOfEra + yearOfEra / 4 - yearOfEra / 100)
  let month := (5 * dayOfYear + 2) / 153
  let day := dayOfYear - (153 * month + 2) / 5 + 1
  if month < 10 then ⟨400 * era + yearOfEra, month + 3, day⟩
  else ⟨400 * era + yearOfEra + 1, month - 9, day⟩

/-- A number with zeros in front up to a width. -/
def digits (width n : Nat) : Text :=
  let shown := Text.ofNat n
  List.replicate (width - shown.length) '0' ++ shown

def fraction (nanoseconds : Nat) : Text :=
  if nanoseconds = 0 then []
  else '.' :: ((digits 9 nanoseconds).reverse.dropWhile (· == '0')).reverse

def toText (moment : Moment) : Text :=
  let seconds := moment.nanoseconds / 1000000000
  let date := dateOfDays (seconds / 86400)
  let ofDay := seconds % 86400
  digits 4 date.year ++ '-' :: digits 2 date.month ++ '-' :: digits 2 date.day ++ 'T' ::
    digits 2 (ofDay / 3600) ++ ':' :: digits 2 (ofDay / 60 % 60) ++ ':' ::
    digits 2 (ofDay % 60) ++ fraction (moment.nanoseconds % 1000000000) ++ ['Z']

end Moment
end MessageKeys
