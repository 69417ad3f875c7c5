import FloatMachine.Log.Calendar
import Mathlib.Algebra.BigOperators.Group.List.Basic
import Mathlib.Algebra.GroupWithZero.Nat

/-! The calendar of the log is the Gregorian one. Each day is followed by the next day of the
calendar, so counting days up to a date gives back the number that the date was made from; and no
step of the computation leaves the words that its numbers are kept in. -/
namespace FloatMachine.Log

namespace Date

/-- Every fourth year has a leap day, but of those that end a century only every fourth. -/
def isLeap (year : Nat) : Bool := year % 4 == 0 && (year % 100 != 0 || year % 400 == 0)

def monthLength (year month : Nat) : Nat :=
  if month = 2 then if isLeap year then 29 else 28
  else if month ∈ [4, 6, 9, 11] then 30
  else 31

def yearLength (year : Nat) : Nat := if isLeap year then 366 else 365

/-- A day of the calendar. -/
structure Valid (d : Date) : Prop where
  month_pos : 1 ≤ d.month
  month_le : d.month ≤ 12
  day_pos : 1 ≤ d.day
  day_le : d.day ≤ monthLength d.year d.month

def next (d : Date) : Date :=
  if d.day < monthLength d.year d.month then { d with day := d.day + 1 }
  else if d.month < 12 then ⟨d.year, d.month + 1, 1⟩
  else ⟨d.year + 1, 1, 1⟩

/-- The days from the first of January 1970 up to a date: those of the years before it, of the
months before it and of its own month. -/
def toDays (d : Date) : Nat :=
  ((List.range (d.year - 1970)).map fun k => yearLength (1970 + k)).sum +
  ((List.range (d.month - 1)).map fun k => monthLength d.year (k + 1)).sum + (d.day - 1)

section Days

theorem months_fill (year : Nat) :
    ((List.range 11).map fun k => monthLength year (k + 1)).sum + 31 = yearLength year := by
  unfold yearLength
  cases leap : isLeap year <;> simp [List.range_succ, monthLength, leap]

variable {d : Date}

theorem Valid.next (valid : d.Valid) : d.next.Valid := by
  have low := valid.month_pos
  have high := valid.month_le
  have full : ∀ year month, 1 ≤ monthLength year month := by
    intro year month
    unfold monthLength
    split_ifs <;> decide
  unfold Date.next
  split
  · rename_i inside
    exact ⟨low, high, Nat.le_add_left 1 _, inside⟩
  · split
    · rename_i before
      exact ⟨Nat.le_add_left 1 _, before, Nat.le_refl 1, full _ _⟩
    · exact ⟨Nat.le_refl 1, Nat.le_add_left 1 11, Nat.le_refl 1, full _ _⟩

theorem year_le_next (d : Date) : d.year ≤ d.next.year := by
  unfold next
  split
  · exact Nat.le_refl _
  · split
    · exact Nat.le_refl _
    · exact Nat.le_succ _

theorem toDays_next (valid : d.Valid) (counted : 1970 ≤ d.year) :
    d.next.toDays = d.toDays + 1 := by
  obtain ⟨year, month, day⟩ := d
  obtain ⟨month_pos, month_le, day_pos, day_le⟩ := valid
  dsimp only at *
  obtain ⟨m, rfl⟩ := Nat.exists_eq_add_of_le' month_pos
  obtain ⟨k, rfl⟩ := Nat.exists_eq_add_of_le counted
  unfold next toDays
  dsimp only
  split
  · dsimp only
    omega
  · have last : day = monthLength (1970 + k) (m + 1) := by omega
    split
    · rw [show m + 1 + 1 - 1 = m + 1 from rfl, List.range_succ, List.map_append, List.sum_append]
      simp only [Nat.add_sub_cancel, List.map_cons, List.map_nil, List.sum_cons, List.sum_nil]
      omega
    · have december : m = 11 := by omega
      subst december
      have filled := months_fill (1970 + k)
      rw [Nat.add_assoc 1970, Nat.add_sub_cancel_left, Nat.add_sub_cancel_left, List.range_succ,
        List.map_append, List.sum_append]
      simp only [Nat.sub_self, List.range_zero, List.map_nil, List.sum_nil, List.map_cons,
        List.sum_cons, Nat.add_sub_cancel]
      have length : monthLength (1970 + k) (11 + 1) = 31 := rfl
      omega

end Days

/-- The year of an era that a day of the era belongs to. Years begin in March. -/
def yearOfEra (dayOfEra : Nat) : Nat :=
  (dayOfEra - dayOfEra / 1460 + dayOfEra / 36524 - dayOfEra / 146096) / 365

def daysBefore (year : Nat) : Nat := 365 * year + year / 4 - year / 100

/-- The length of a year that begins in March: its leap day is that of the next January's year. -/
def marchLength (year : Nat) : Nat := yearLength (year + 1)

/-- The months since March that are over on a day of such a year. -/
def monthsOver (dayOfYear : Nat) : Nat := (5 * dayOfYear + 2) / 153

def monthOf (dayOfYear : Nat) : Nat :=
  if monthsOver dayOfYear < 10 then monthsOver dayOfYear + 3 else monthsOver dayOfYear - 9

def dayOf (dayOfYear : Nat) : Nat := dayOfYear - (153 * monthsOver dayOfYear + 2) / 5 + 1

def ofMarch (era year dayOfYear : Nat) : Date :=
  ⟨year + era * 400 + if monthOf dayOfYear ≤ 2 then 1 else 0, monthOf dayOfYear, dayOf dayOfYear⟩

section Years

/-- Taking off every `k`-th of some days leaves no less of more days. -/
theorem kept_mono {k a b : Nat} (positive : 0 < k) (le : a ≤ b) : a - a / k ≤ b - b / k := by
  obtain ⟨c, rfl⟩ := Nat.exists_eq_add_of_le le
  have fewer : (a + c) / k ≤ a / k + c := calc
    (a + c) / k ≤ (a + k * c) / k :=
      Nat.div_le_div_right (Nat.add_le_add_left (Nat.le_mul_of_pos_left c positive) a)
    _ = a / k + c := Nat.add_mul_div_left a c positive
  have := Nat.div_le_self a k
  omega

theorem quarter_le (n : Nat) : n / 146096 ≤ n / 36524 :=
  Nat.div_le_div_left (by decide) (by decide)

theorem yearOfEra_mono {a b : Nat} (le : a ≤ b) : yearOfEra a ≤ yearOfEra b := by
  have split : ∀ n : Nat, n - n / 1460 + n / 36524 - n / 146096 =
      (n - n / 1460) + (n / 36524 - n / 36524 / 4) := by
    intro n
    rw [Nat.div_div_eq_div_mul]
    have := quarter_le n
    omega
  unfold yearOfEra
  rw [split, split]
  have days := kept_mono (k := 1460) (by decide) le
  have centuries := kept_mono (k := 4) (by decide) (Nat.div_le_div_right (c := 36524) le)
  exact Nat.div_le_div_right (Nat.add_le_add days centuries)

theorem yearOfEra_ends : ∀ year < 400, yearOfEra (daysBefore year) = year ∧
    yearOfEra (daysBefore year + (marchLength year - 1)) = year ∧
    daysBefore year + marchLength year =
      if year = 399 then daysPerEra else daysBefore (year + 1) := by
  decide +kernel

variable {era year day : Nat}

/-- Between the ends of a year the days belong to it, as the computed year never falls. -/
theorem yearOfEra_eq (inside : year < 400) (within : day < marchLength year) :
    yearOfEra (daysBefore year + day) = year := by
  obtain ⟨first, last, -⟩ := yearOfEra_ends year inside
  apply Nat.le_antisymm
  · calc yearOfEra (daysBefore year + day)
      _ ≤ yearOfEra (daysBefore year + (marchLength year - 1)) := yearOfEra_mono (by omega)
      _ = year := last
  · calc year
      _ = yearOfEra (daysBefore year) := first.symm
      _ ≤ yearOfEra (daysBefore year + day) := yearOfEra_mono (Nat.le_add_right _ _)

theorem marchLength_bounds (year : Nat) : 365 ≤ marchLength year ∧ marchLength year ≤ 366 := by
  unfold marchLength yearLength
  split <;> decide

theorem marchLength_pos (year : Nat) : 0 < marchLength year :=
  Nat.lt_of_lt_of_le (by decide) (marchLength_bounds year).1

theorem within_era (inside : year < 400) (within : day < marchLength year) :
    daysBefore year + day < daysPerEra := by
  have monotone : daysBefore (year + 1) ≤ daysPerEra := by
    unfold daysBefore daysPerEra
    omega
  have filled := (yearOfEra_ends year inside).2.2
  split at filled <;> omega

theorem era_parts {n : Nat} (below : daysBefore year + day < daysPerEra)
    (place : n = era * daysPerEra + (daysBefore year + day)) :
    n / daysPerEra = era ∧ n % daysPerEra = daysBefore year + day := by
  rw [place, Nat.mul_comm]
  constructor
  · rw [Nat.mul_add_div (by decide), Nat.div_eq_of_lt below, Nat.add_zero]
  · rw [Nat.mul_add_mod, Nat.mod_eq_of_lt below]

theorem ofDays_eq {days : Nat} (inside : year < 400) (within : day < marchLength year)
    (place : days + 719468 = era * daysPerEra + (daysBefore year + day)) :
    ofDays days = ofMarch era year day := by
  obtain ⟨eras, rest⟩ := era_parts (within_era inside within) place
  have unfolded : ofDays days = ofMarch ((days + 719468) / daysPerEra)
      (yearOfEra ((days + 719468) % daysPerEra)) ((days + 719468) % daysPerEra -
        daysBefore (yearOfEra ((days + 719468) % daysPerEra))) := rfl
  rw [unfolded, eras, rest, yearOfEra_eq inside within, Nat.add_sub_cancel_left]

/-- The place of the day after a day: in its year, in the next year, or in the next era. -/
inductive Follows : Nat → Nat → Nat → Nat → Nat → Nat → Prop
  | day {era year day : Nat} : day + 1 < marchLength year → Follows era year day era year (day + 1)
  | year {era year day : Nat} : year < 399 → day + 1 = marchLength year →
      Follows era year day era (year + 1) 0
  | era {era day : Nat} : day + 1 = marchLength 399 → Follows era 399 day (era + 1) 0 0

theorem exists_follows (era : Nat) (inside : year < 400) (within : day < marchLength year) :
    ∃ newEra newYear newDay, Follows era year day newEra newYear newDay := by
  by_cases more : day + 1 < marchLength year
  · exact ⟨_, _, _, .day more⟩
  · have last : day + 1 = marchLength year := by omega
    by_cases before : year < 399
    · exact ⟨_, _, _, .year before last⟩
    · obtain rfl : year = 399 := by omega
      exact ⟨_, _, _, .era last⟩

variable {newEra newYear newDay : Nat}

theorem Follows.place (follows : Follows era year day newEra newYear newDay)
    (inside : year < 400) : newYear < 400 ∧ newDay < marchLength newYear ∧
    newEra * daysPerEra + (daysBefore newYear + newDay) =
      era * daysPerEra + (daysBefore year + day) + 1 := by
  have filled := (yearOfEra_ends year inside).2.2
  cases follows with
  | day more => exact ⟨inside, more, by omega⟩
  | year before last =>
    rw [if_neg (Nat.ne_of_lt before)] at filled
    exact ⟨by omega, marchLength_pos _, by omega⟩
  | era last =>
    rw [if_pos rfl] at filled
    refine ⟨by decide, marchLength_pos _, ?_⟩
    have first : daysBefore 0 = 0 := rfl
    rw [Nat.add_mul, first]
    omega

theorem exists_place (n : Nat) : ∃ era year day, year < 400 ∧ day < marchLength year ∧
    n = era * daysPerEra + (daysBefore year + day) := by
  induction n with
  | zero => exact ⟨0, 0, 0, by decide, marchLength_pos _, rfl⟩
  | succ n ih =>
    obtain ⟨era, year, day, inside, within, rfl⟩ := ih
    obtain ⟨newEra, newYear, newDay, follows⟩ := exists_follows era inside within
    obtain ⟨early, short, place⟩ := follows.place inside
    exact ⟨newEra, newYear, newDay, early, short, place.symm⟩

end Years

section Successor

variable {era year day newEra newYear newDay : Nat}

/-- In all months but February, which ends the year, the length does not depend on the year. -/
theorem month_steps : ∀ day < 365, monthOf day ≠ 2 → day < 337 ∧
    if dayOf day < monthLength 0 (monthOf day) then
      monthOf (day + 1) = monthOf day ∧ dayOf (day + 1) = dayOf day + 1
    else monthOf (day + 1) = monthOf day % 12 + 1 ∧ dayOf (day + 1) = 1 := by
  decide +kernel

theorem february_days : ∀ day < 366, monthOf day = 2 → 337 ≤ day ∧ dayOf day = day - 336 := by
  decide +kernel

theorem month_bounds : ∀ day < 366, 1 ≤ monthOf day ∧ monthOf day ≤ 12 := by
  decide +kernel

theorem february_ends : ∀ day < 366, 337 ≤ day → monthOf day = 2 := by
  decide +kernel

theorem monthLength_other {month : Nat} (other : month ≠ 2) (year : Nat) :
    monthLength year month = monthLength 0 month := by
  rw [monthLength, monthLength, if_neg other, if_neg other]

theorem isLeap_era (year era : Nat) : isLeap (year + era * 400) = isLeap year := by
  have four : (year + era * 400) % 4 = year % 4 := by omega
  have hundred : (year + era * 400) % 100 = year % 100 := by omega
  have all : (year + era * 400) % 400 = year % 400 := by omega
  rw [isLeap, isLeap, four, hundred, all]

theorem monthLength_february (era year : Nat) :
    monthLength (year + era * 400 + 1) 2 + 337 = marchLength year := by
  rw [monthLength, if_pos rfl, marchLength, yearLength, Nat.add_right_comm, isLeap_era]
  split <;> rfl

theorem next_ofMarch (within : day < marchLength year)
    (follows : Follows era year day newEra newYear newDay) :
    (ofMarch era year day).next = ofMarch newEra newYear newDay := by
  have short := (marchLength_bounds year).2
  by_cases february : monthOf day = 2
  · -- the year goes on just when its February does
    obtain ⟨late, days⟩ := february_days day (by omega) february
    have length := monthLength_february era year
    unfold next ofMarch
    dsimp only
    rw [february, if_pos (Nat.le_refl 2), days]
    cases follows with
    | day more =>
      have still := february_ends (day + 1) (by omega) (by omega)
      have later := (february_days (day + 1) (by omega) still).2
      rw [if_pos (by omega), still, later, if_pos (Nat.le_refl 2), Nat.sub_add_comm (by omega)]
    | year before last =>
      rw [if_neg (by omega), if_pos (by decide)]
      change (⟨_, 3, 1⟩ : Date) = ⟨year + 1 + era * 400, 3, 1⟩
      rw [Nat.add_right_comm]
    | era last =>
      rw [if_neg (by omega), if_pos (by decide)]
      change (⟨399 + era * 400 + 1, 3, 1⟩ : Date) = ⟨0 + (era + 1) * 400, 3, 1⟩
      rw [Nat.add_mul, Nat.zero_add, Nat.add_right_comm, Nat.add_comm]
  · have long := (marchLength_bounds year).1
    obtain ⟨early, step⟩ := month_steps day
      (Nat.lt_of_not_le fun late => february (february_ends day (by omega) (by omega))) february
    obtain ⟨low, high⟩ := month_bounds day (by omega)
    -- no other month is the last one of its year, so the year does not change
    have same : newEra = era ∧ newYear = year ∧ newDay = day + 1 := by
      cases follows with
      | day more => exact ⟨rfl, rfl, rfl⟩
      | year _ last => omega
      | era last => omega
    obtain ⟨rfl, rfl, rfl⟩ := same
    unfold next ofMarch
    dsimp only
    rw [monthLength_other february]
    split at step
    · rename_i inside
      rw [if_pos inside, step.1, step.2]
    · rename_i last
      rw [if_neg last, step.1, step.2]
      split
      · rename_i before
        rw [Nat.mod_eq_of_lt before]
        refine congrArg (fun y : Nat => (⟨y, monthOf day + 1, 1⟩ : Date)) ?_
        split <;> split <;> omega
      · have december : monthOf day = 12 := by omega
        rw [december]
        rfl

theorem ofDays_succ (days : Nat) : ofDays (days + 1) = (ofDays days).next := by
  obtain ⟨era, year, day, inside, within, here⟩ := exists_place (days + 719468)
  obtain ⟨newEra, newYear, newDay, follows⟩ := exists_follows era inside within
  obtain ⟨early, short, there⟩ := follows.place inside
  rw [ofDays_eq inside within here, next_ofMarch within follows]
  exact ofDays_eq early short (by omega)

theorem ofDays_counted (days : Nat) :
    (ofDays days).Valid ∧ 1970 ≤ (ofDays days).year ∧ (ofDays days).toDays = days := by
  induction days with
  | zero => exact ⟨⟨by decide, by decide, by decide, by decide⟩, by decide, by decide⟩
  | succ days ih =>
    obtain ⟨valid, counted, same⟩ := ih
    rw [ofDays_succ]
    exact ⟨valid.next, Nat.le_trans counted (year_le_next _),
      (toDays_next valid counted).trans (congrArg Nat.succ same)⟩

end Successor

/-- A result that has to fit 32 bits without a sign. -/
def short (n : Nat) : Option Nat := if n < 0x100000000 then some n else none

/-- A result that has to fit 64 bits with a sign. -/
def long (n : Nat) : Option Nat := if n < 0x8000000000000000 then some n else none

def minus (a b : Nat) : Option Nat := if b ≤ a then some (a - b) else none

def yearOfEra? (dayOfEra : Nat) : Option Nat := do
  let kept ← minus dayOfEra (dayOfEra / 1460)
  let more ← short (kept + dayOfEra / 36524)
  return (← minus more (dayOfEra / 146096)) / 365

def daysBefore? (year : Nat) : Option Nat := do
  let common ← short (365 * year)
  minus (← short (common + year / 4)) (year / 100)

def monthsOver? (dayOfYear : Nat) : Option Nat := do
  return (← short ((← short (5 * dayOfYear)) + 2)) / 153

def monthOf? (months : Nat) : Option Nat := if months < 10 then short (months + 3) else minus months 9

def dayOf? (dayOfYear months : Nat) : Option Nat := do
  let scaled ← short ((← short (153 * months)) + 2)
  short ((← minus dayOfYear (scaled / 5)) + 1)

/-- The date of a day computed in words, where there is none as soon as a result does not fit its
word: counts of days, eras and years have 64 bits, and what is counted within an era has 32. -/
def ofDays? (days : Nat) : Option Date := do
  let shifted ← long ((← long days) + 719468)
  let dayOfEra ← short (shifted % daysPerEra)
  let yearOfEra ← yearOfEra? dayOfEra
  let dayOfYear ← minus dayOfEra (← daysBefore? yearOfEra)
  let months ← monthsOver? dayOfYear
  let day ← dayOf? dayOfYear months
  let month ← monthOf? months
  let year ← long (yearOfEra + (← long (shifted / daysPerEra * 400)))
  return ⟨← long (year + if month ≤ 2 then 1 else 0), month, day⟩

section Words

theorem short_eq {n : Nat} (fits : n < 0x100000000) : short n = some n := if_pos fits

theorem long_eq {n : Nat} (fits : n < 0x8000000000000000) : long n = some n := if_pos fits

theorem minus_eq {a b : Nat} (le : b ≤ a) : minus a b = some (a - b) := if_pos le

theorem read_some {α β : Type} {x : Option α} {a : α} (found : x = some a) (next : α → Option β) :
    (x >>= next) = next a := by
  rw [found]
  rfl

theorem yearOfEra?_eq {dayOfEra : Nat} (inside : dayOfEra < daysPerEra) :
    yearOfEra? dayOfEra = some (yearOfEra dayOfEra) := by
  have quarter := quarter_le dayOfEra
  have small : dayOfEra < 0x10000000 := Nat.lt_trans inside (by decide)
  rw [yearOfEra?, read_some (minus_eq (by omega)), read_some (short_eq (by omega)),
    read_some (minus_eq (by omega))]
  rfl

theorem daysBefore?_eq {year : Nat} (inside : year < 400) :
    daysBefore? year = some (daysBefore year) := by
  rw [daysBefore?, read_some (short_eq (by omega)), read_some (short_eq (by omega)),
    minus_eq (by omega)]
  rfl

variable {day : Nat}

theorem monthsOver?_eq (inside : day < 366) : monthsOver? day = some (monthsOver day) := by
  rw [monthsOver?, read_some (short_eq (by omega)), read_some (short_eq (by omega))]
  rfl

theorem monthsOver_lt (inside : day < 366) : monthsOver day < 12 := by
  unfold monthsOver
  omega

theorem monthOf?_eq (inside : day < 366) :
    monthOf? (monthsOver day) = some (monthOf day) := by
  have months := monthsOver_lt inside
  unfold monthOf? monthOf
  split
  · exact short_eq (by omega)
  · exact minus_eq (by omega)

theorem over_le : ∀ day < 366, (153 * monthsOver day + 2) / 5 ≤ day := by
  decide +kernel

theorem dayOf?_eq (inside : day < 366) : dayOf? day (monthsOver day) = some (dayOf day) := by
  have months := monthsOver_lt inside
  rw [dayOf?, read_some (short_eq (by omega)), read_some (short_eq (by omega)),
    read_some (minus_eq (over_le day inside)), short_eq (by omega)]
  rfl

/-- No result leaves its word on a day that seconds counted in 64 bits can reach. -/
theorem ofDays?_eq {days : Nat} (reached : days < 0x1000000000000) :
    ofDays? days = some (ofDays days) := by
  obtain ⟨era, year, day, inside, within, place⟩ := exists_place (days + 719468)
  have below := within_era inside within
  have small : day < 366 := Nat.lt_of_lt_of_le within (marchLength_bounds year).2
  obtain ⟨eras, rest⟩ := era_parts below place
  have far : era ≤ days + 719468 := by
    rw [← eras]
    exact Nat.div_le_self _ _
  have fits : daysBefore year + day < 0x100000000 := Nat.lt_trans below (by decide)
  rw [ofDays?, read_some (long_eq (by omega)), read_some (long_eq (by omega)), rest, eras,
    read_some (short_eq fits), read_some (yearOfEra?_eq below), yearOfEra_eq inside within,
    read_some (daysBefore?_eq inside), read_some (minus_eq (Nat.le_add_right _ _)),
    Nat.add_sub_cancel_left, read_some (monthsOver?_eq small), read_some (dayOf?_eq small),
    read_some (monthOf?_eq small), read_some (long_eq (by omega)), read_some (long_eq (by omega)),
    read_some (long_eq (by split <;> omega)), ofDays_eq inside within place]
  rfl

end Words

end Date

namespace Timestamp

def hour (t : Timestamp) : Nat := t.secondOfDay / 3600
def minute (t : Timestamp) : Nat := t.secondOfDay / 60 % 60
def second (t : Timestamp) : Nat := t.secondOfDay % 60

/-- The seconds from the start of 1970 up to a time. -/
def toUnix (t : Timestamp) : Nat :=
  86400 * t.date.toDays + (3600 * t.hour + 60 * t.minute + t.second)

/-- A time of a day of the calendar. -/
structure Valid (t : Timestamp) : Prop where
  date : t.date.Valid
  hour_lt : t.hour < 24
  minute_lt : t.minute < 60
  second_lt : t.second < 60

theorem clock (t : Timestamp) : 3600 * t.hour + 60 * t.minute + t.second = t.secondOfDay := by
  unfold hour minute second
  omega

/-- Seconds in 64 bits have a date and time of the Gregorian calendar, computed without leaving the
words and written out, that stands for just these seconds; and days are numbered in the order of the
calendar. -/
theorem calendar_exact :
    (∀ seconds millis : Nat, seconds < 0x10000000000000000 →
      Date.ofDays? (seconds / 86400) = some (ofUnix seconds millis).date ∧
      (ofUnix seconds millis).Valid ∧ (ofUnix seconds millis).toUnix = seconds) ∧
    (∀ t : Timestamp, t.toText =
      Text.zeroPadded 4 t.date.year ++ "-" ++ Text.zeroPadded 2 t.date.month ++ "-" ++
      Text.zeroPadded 2 t.date.day ++ " " ++ Text.zeroPadded 2 t.hour ++ ":" ++
      Text.zeroPadded 2 t.minute ++ ":" ++ Text.zeroPadded 2 t.second ++ "." ++
      Text.zeroPadded 3 t.millis) ∧
    Date.ofDays 0 = ⟨1970, 1, 1⟩ ∧ ∀ days, Date.ofDays (days + 1) = (Date.ofDays days).next := by
  refine ⟨fun seconds millis bounded => ?_, fun _ => rfl, by decide, Date.ofDays_succ⟩
  obtain ⟨valid, -, days⟩ := Date.ofDays_counted (seconds / 86400)
  have whole := clock (ofUnix seconds millis)
  have rest : (ofUnix seconds millis).secondOfDay < 86400 := Nat.mod_lt seconds (by decide)
  refine ⟨Date.ofDays?_eq (by omega), ⟨valid, ?_, ?_, ?_⟩, ?_⟩
  · unfold hour
    omega
  · exact Nat.mod_lt _ (by decide)
  · exact Nat.mod_lt _ (by decide)
  · rw [toUnix, whole]
    change 86400 * (Date.ofDays (seconds / 86400)).toDays + seconds % 86400 = seconds
    rw [days, Nat.div_add_mod]

/-- The last second that 64 bits can count. -/
theorem calendar_exact_last :
    0xffffffffffffffff < 0x10000000000000000 ∧
    Date.ofDays? (0xffffffffffffffff / 86400) = some ⟨584554051223, 11, 9⟩ ∧
    (ofUnix 0xffffffffffffffff 0).toUnix = 0xffffffffffffffff := by
  have last : 0xffffffffffffffff < 0x10000000000000000 := by decide
  have date : (ofUnix 0xffffffffffffffff 0).date = ⟨584554051223, 11, 9⟩ := by decide +kernel
  obtain ⟨computed, -, same⟩ := calendar_exact.1 0xffffffffffffffff 0 last
  exact ⟨last, date ▸ computed, same⟩

end Timestamp
end FloatMachine.Log
