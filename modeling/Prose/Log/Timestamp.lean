import Prose.Json
import Prose.Log

namespace Prose

/-- A time as seconds since the beginning of 1970 and nanoseconds. A thousand million nanoseconds
and more stand for a leap second. -/
structure Timestamp where
  seconds : Int
  nanos : Nat
  deriving DecidableEq, Inhabited

structure Date where
  year : Int
  month : Nat
  day : Nat
  deriving DecidableEq, Inhabited

/-- The date of a day counted from the first of January 1970. Years are counted from March here, so
that the leap day is their last; an era has 400 years. -/
def Date.ofDays (days : Int) : Date :=
  let z := days + 719468
  let era := z.fdiv 146097
  let dayOfEra := (z - era * 146097).toNat
  let yearOfEra := (dayOfEra - dayOfEra / 1460 + dayOfEra / 36524 - dayOfEra / 146096) / 365
  let dayOfYear := dayOfEra - (365 * yearOfEra + yearOfEra / 4 - yearOfEra / 100)
  let m := (5 * dayOfYear + 2) / 153
  let month := if m < 10 then m + 3 else m - 9
  ⟨yearOfEra + era * 400 + (if month ≤ 2 then 1 else 0), month, dayOfYear - (153 * m + 2) / 5 + 1⟩

namespace Timestamp

def padded (width n : Nat) : String :=
  let digits := toString n
  "".pushn '0' (width - digits.length) ++ digits

def secondOfDay (t : Timestamp) : Nat :=
  (t.seconds.fmod 86400).toNat

def clock (t : Timestamp) : String :=
  padded 2 (t.secondOfDay / 3600) ++ ":" ++ padded 2 (t.secondOfDay / 60 % 60) ++ ":" ++
    padded 2 (t.secondOfDay % 60 + t.nanos / 1000000000)

def timeOfDay (t : Timestamp) : String :=
  t.clock ++ "." ++ padded 3 (t.nanos % 1000000000 / 1000000)

/-- The fraction of a second with as many groups of three digits as it needs. -/
def fraction (t : Timestamp) : String :=
  let n := t.nanos % 1000000000
  if n = 0 then ""
  else if n % 1000000 = 0 then "." ++ padded 3 (n / 1000000)
  else if n % 1000 = 0 then "." ++ padded 6 (n / 1000)
  else "." ++ padded 9 n

def writeYear (y : Int) : String :=
  if y < 0 then "-" ++ padded 4 y.natAbs
  else if 9999 < y then "+" ++ toString y.natAbs
  else padded 4 y.natAbs

def render (t : Timestamp) : String :=
  let date := Date.ofDays (t.seconds.fdiv 86400)
  writeYear date.year ++ "-" ++ padded 2 date.month ++ "-" ++ padded 2 date.day ++ "T" ++ t.clock ++
    t.fraction ++ "Z"

end Timestamp

structure StampedEntry where
  time : Timestamp
  entry : LogEntry
  deriving DecidableEq, Inhabited

namespace StampedEntry

def render (e : StampedEntry) : String :=
  "[" ++ e.time.timeOfDay ++ "] " ++ e.entry.level.word ++ ": " ++ e.entry.message

def toJson (e : StampedEntry) : Json :=
  .record [("time", .text e.time.render), ("level", .text e.entry.level.name),
    ("message", .text e.entry.message)]

end StampedEntry

end Prose
