import Toolchain.Text.Basic

/-!
# Points in time

A point in time counts nanoseconds from the beginning of the year one. It is written with its date
and its time of day, and may be read with the offset of a time zone.

## Main definitions

* `Instant`: a point in time
* `Instant.text`, `Instant.parse?`: how it is written and read
-/

namespace Toolchain

/-- A point in time: the nanoseconds since the beginning of the year one. -/
structure Instant where
  nanoseconds : Nat := 0
  deriving DecidableEq, Repr, Inhabited

/-- A day of the calendar; months and days count from one. -/
structure CalendarDay where
  year : Nat
  month : Nat
  day : Nat
  deriving DecidableEq, Repr

namespace CalendarDay

/-- Whether a year has a leap day. -/
def isLeap (year : Nat) : Bool := year % 4 = 0 && (year % 100 ≠ 0 || year % 400 = 0)

/-- The lengths of the months of a year. -/
def monthLengths (year : Nat) : List Nat :=
  [31, if isLeap year then 29 else 28, 31, 30, 31, 30, 31, 31, 30, 31, 30, 31]

/-- The days from the beginning of the year one to that of another year. -/
def daysBefore (year : Nat) : Nat :=
  let past := year - 1
  365 * past + past / 4 - past / 100 + past / 400

/-- The days from the beginning of the year one to a day. -/
def number (d : CalendarDay) : Nat :=
  daysBefore d.year + ((monthLengths d.year).take (d.month - 1)).foldl (· + ·) 0 + (d.day - 1)

/-- The month and the day that stand a number of days after the beginning of months with the given
lengths, the first of which is `month`. -/
def inMonths (month : Nat) : List Nat → Nat → Nat × Nat
  | [], days => (month, days + 1)
  | length :: lengths, days =>
    if days < length then (month, days + 1) else inMonths (month + 1) lengths (days - length)

/-- The day that stands a number of days after the beginning of the year one. Four hundred years
always have the same number of days; within them, only the last century has a leap day at its end,
and only the last of four years has one. -/
def ofNumber (days : Nat) : CalendarDay :=
  let inEra := days % 146097
  let centuries := min 3 (inEra / 36524)
  let inCentury := inEra - centuries * 36524
  let inCycle := inCentury % 1461
  let years := min 3 (inCycle / 365)
  let year := days / 146097 * 400 + centuries * 100 + inCentury / 1461 * 4 + years + 1
  let (month, day) := inMonths 1 (monthLengths year) (inCycle - years * 365)
  ⟨year, month, day⟩

end CalendarDay

namespace Instant

/-- The nanoseconds of a second. -/
def second : Nat := 1000000000

/-- The seconds of a day. -/
def daySeconds : Nat := 86400

/-- A number with at least the given count of digits. -/
def padded (width n : Nat) : Text := (Text.ofNat n).padLeft width '0'

/-- The digits after the point of a number of nanoseconds, without the zeros at the end; empty for
none. -/
def fractionText (nanoseconds : Nat) : Text :=
  if nanoseconds = 0 then []
  else "." ++ ((padded 9 nanoseconds).reverse.dropWhile fun b => b = '0'.toUInt8).reverse

/-- How a point in time is written. -/
def text (t : Instant) : Text :=
  let seconds := t.nanoseconds / second
  let day := CalendarDay.ofNumber (seconds / daySeconds)
  let inDay := seconds % daySeconds
  padded 4 day.year ++ "-" ++ padded 2 day.month ++ "-" ++ padded 2 day.day ++ "T" ++
    padded 2 (inDay / 3600) ++ ":" ++ padded 2 (inDay / 60 % 60) ++ ":" ++ padded 2 (inDay % 60) ++
    fractionText (t.nanoseconds % second) ++ "Z"

/-- Reads a number of exactly the given count of digits. -/
def digits? (width : Nat) (cs : List Char) : Option (Nat × List Char) :=
  let ds := cs.take width
  if ds.length = width ∧ ds.all Char.isDigit then
    some (ds.foldl (fun n c => 10 * n + (c.toNat - '0'.toNat)) 0, cs.drop width)
  else none

/-- Reads the given character. -/
def mark? (c : Char) : List Char → Option (List Char)
  | [] => none
  | d :: rest => if c = d then some rest else none

/-- Reads the digits after a point as nanoseconds, if there is one. A comma may stand for the point
unless the form is `strict`. -/
def fraction? (strict : Bool) : List Char → Option (Nat × List Char)
  | [] => some (0, [])
  | mark :: rest =>
    let ds := rest.takeWhile Char.isDigit
    if mark ≠ '.' && (strict || mark ≠ ',') then some (0, mark :: rest)
    else if ds.isEmpty then none
    else do
      let (n, _) ← digits? 9 (ds ++ List.replicate 9 '0')
      return (n, rest.dropWhile Char.isDigit)

/-- Reads an hour, which may have one digit unless the form is `strict`. -/
def hour? (strict : Bool) (cs : List Char) : Option (Nat × List Char) :=
  match digits? 2 cs with
  | some read => some read
  | none => if strict then none else digits? 1 cs

/-- Reads the offset of a time zone in seconds: to the east, and to the west. A whole day and a
whole hour are taken as well. -/
def offset? : List Char → Option (Nat × Nat)
  | ['Z'] => some (0, 0)
  | sign :: rest => do
    let (hours, rest) ← digits? 2 rest
    let (minutes, rest) ← digits? 2 (← mark? ':' rest)
    let seconds := hours * 3600 + minutes * 60
    if !rest.isEmpty || hours > 24 || minutes > 60 then none
    else if sign = '+' then some (seconds, 0)
    else if sign = '-' then some (0, seconds)
    else none
  | [] => none

/-- Whether a text is as long as the usual form of a point in time, and ends like it. -/
def isUsual (t : Text) : Bool :=
  20 ≤ t.length && t.length ≤ 30 && t.getLast? = some 'Z'.toUInt8

/-- The point in time that a text writes; only the usual form is read strictly. -/
def parse? (t : Text) : Option Instant := do
  let strict := isUsual t
  let (year, rest) ← digits? 4 t.chars
  let (month, rest) ← digits? 2 (← mark? '-' rest)
  let (day, rest) ← digits? 2 (← mark? '-' rest)
  let (hour, rest) ← hour? strict (← mark? 'T' rest)
  let (minute, rest) ← digits? 2 (← mark? ':' rest)
  let (secs, rest) ← digits? 2 (← mark? ':' rest)
  let (nanoseconds, rest) ← fraction? strict rest
  let (east, west) ← offset? rest
  let length ← (CalendarDay.monthLengths year)[month - 1]?
  if month = 0 || day = 0 || day > length || hour ≥ 24 || minute ≥ 60 || secs ≥ 60 then none
  else
    let here := CalendarDay.number ⟨year, month, day⟩ * daySeconds + hour * 3600 +
      minute * 60 + secs
    return ⟨(here + west - east) * second + nanoseconds⟩

end Instant

end Toolchain
