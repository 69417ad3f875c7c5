import FloatMachine.Text.Align

/-! Dates and times of the log: seconds since the start of 1970 in the Gregorian calendar.
Days are counted in eras of 400 years from the first of March of year 0, so that a leap day
is the last day of its year. -/
namespace FloatMachine.Log

structure Date where
  year : Nat
  month : Nat
  day : Nat
deriving DecidableEq, Repr

namespace Date

def daysPerEra : Nat := 146097

/-- The date that lies `days` days after the first of January 1970. -/
def ofDays (days : Nat) : Date :=
  let shifted := days + 719468
  let era := shifted / daysPerEra
  let dayOfEra := shifted % daysPerEra
  let yearOfEra :=
    (dayOfEra - dayOfEra / 1460 + dayOfEra / 36524 - dayOfEra / 146096) / 365
  let dayOfYear := dayOfEra - (365 * yearOfEra + yearOfEra / 4 - yearOfEra / 100)
  let march := (5 * dayOfYear + 2) / 153
  let day := dayOfYear - (153 * march + 2) / 5 + 1
  let month := if march < 10 then march + 3 else march - 9
  ⟨yearOfEra + era * 400 + if month ≤ 2 then 1 else 0, month, day⟩

end Date

structure Timestamp where
  date : Date
  secondOfDay : Nat
  millis : Nat
deriving DecidableEq, Repr

namespace Timestamp

def ofUnix (seconds millis : Nat) : Timestamp :=
  ⟨Date.ofDays (seconds / 86400), seconds % 86400, millis⟩

def toText (t : Timestamp) : String :=
  let two := Text.zeroPadded 2
  Text.zeroPadded 4 t.date.year ++ "-" ++ two t.date.month ++ "-" ++ two t.date.day ++ " " ++
  two (t.secondOfDay / 3600) ++ ":" ++ two (t.secondOfDay / 60 % 60) ++ ":" ++
  two (t.secondOfDay % 60) ++ "." ++ Text.zeroPadded 3 t.millis

end Timestamp
end FloatMachine.Log
