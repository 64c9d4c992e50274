import Vigil.Time.Interval

/-!
# Vigil.Time.Instant — points of network time

An instant is a number of whole seconds since the epoch (rounded down) and
the nanoseconds into that second. A nanosecond part of `10^9` or more lies in
a leap second, which only the last second of a minute can have. Instants
cover the years −262143 to 262142.

* `shift?` — moves an instant, leaving a leap second only when the move is
  long enough to leave it.
* `since?` — the interval between two instants, counting a leap second that
  lies between their times of day.
* `stamp` — day, month and clock text.
-/

namespace Vigil

namespace Instant

def firstSecond : Int := -8334601228800

def lastSecond : Int := 8210266876799

def second : Nat := 1000000000

def day : Int := 86400

/-- The seconds are covered, and a leap second ends a minute. -/
def Valid (secs : Int) (nanos : Nat) : Prop :=
  firstSecond ≤ secs ∧ secs ≤ lastSecond ∧ nanos < 2 * second ∧
    (second ≤ nanos → secs % 60 = 59)

instance (secs : Int) (nanos : Nat) : Decidable (Valid secs nanos) :=
  inferInstanceAs (Decidable (_ ∧ _ ∧ _ ∧ (_ → _)))

end Instant

structure Instant where
  secs : Int
  nanos : Nat
  valid : Instant.Valid secs nanos
deriving DecidableEq, Repr

namespace Instant

def of? (secs : Int) (nanos : Nat) : Option Instant :=
  if h : Valid secs nanos then some ⟨secs, nanos, h⟩ else none

def epoch : Instant := ⟨0, 0, by decide⟩

instance : Inhabited Instant := ⟨epoch⟩

def order (a b : Instant) : Ordering :=
  (compare a.secs b.secs).then (compare a.nanos b.nanos)

def secondOfDay (t : Instant) : Int := t.secs % day

/-- Where a move by `seconds` and `nanos` (of one sign) starts: an instant in
a leap second that the move leaves is taken as the matching ordinary second
before it (moving forward) or after it (moving back). `none` when the move
stays inside the leap second's minute end. -/
def departure? (t : Instant) (seconds nanos : Int) : Option (Int × Int) :=
  if t.nanos < second then some (t.secs, t.nanos)
  else if 0 < seconds ∨ (0 < nanos ∧ 2 * second ≤ t.nanos + nanos) then
    some (t.secs, t.nanos - second)
  else if seconds < 0 then some (t.secs + 1, t.nanos - second)
  else none

/-- The instant `d` after `t`; `none` outside the covered range. -/
def shift? (t : Instant) (d : Interval) : Option Instant :=
  let seconds := d.wholeSeconds
  let nanos := d.subsecNanos
  match t.departure? seconds nanos with
  | none => of? t.secs (t.nanos + nanos).toNat
  | some (startSecs, startNanos) =>
    -- `total` may be one second below or above the range of a nanosecond part
    let total := startNanos + nanos
    of? (startSecs + seconds + total.fdiv second) (total.fmod second).toNat

def since? (a b : Instant) : Option Interval :=
  let days := a.secs / day - b.secs / day
  let clock := a.secondOfDay - b.secondOfDay
  -- a leap second between the two times of day has to be counted
  let leap : Int :=
    if b.secondOfDay < a.secondOfDay ∧ second ≤ b.nanos then 1
    else if a.secondOfDay < b.secondOfDay ∧ second ≤ a.nanos then -1
    else 0
  Interval.ofNanos? ((days * day + clock + leap) * second + ((a.nanos : Int) - b.nanos))

/-- The instant `secs` seconds after the epoch, truncated to nanoseconds. -/
def ofSeconds? (secs : Double) : Option Instant :=
  let whole := secs.floor
  let nanos := ((secs.sub whole).mul (Double.ofInt second)).clamp 0 0xffffffff
  of? (whole.clamp Word.minSigned Word.maxSigned) nanos.toNat

/-! ## Text -/

/-- Seconds since the epoch with microseconds; a leap second shows seven
digits there. -/
def text (t : Instant) : String :=
  Digits.ofInt t.secs ++ "." ++ Digits.padded 6 (t.nanos / 1000)

/-- Month and day of a day counted from the epoch, in the proleptic Gregorian
calendar. Days are counted within the 400-year era that starts on a first of
March, so that the leap day is the last of its year. -/
def monthAndDay (daysSinceEpoch : Int) : Nat × Nat :=
  let shifted := daysSinceEpoch + 719468
  let dayOfEra := (shifted % 146097).toNat
  let yearOfEra := (dayOfEra - dayOfEra / 1460 + dayOfEra / 36524 - dayOfEra / 146096) / 365
  let dayOfYear := dayOfEra - (365 * yearOfEra + yearOfEra / 4 - yearOfEra / 100)
  let march := (5 * dayOfYear + 2) / 153
  let dayOfMonth := dayOfYear - (153 * march + 2) / 5 + 1
  (if march < 10 then march + 3 else march - 9, dayOfMonth)

/-- `day/month hour:minute:second`; a leap second is second 60. -/
def stamp (t : Instant) : String :=
  let (month, dayOfMonth) := monthAndDay (t.secs / day)
  let clock := t.secondOfDay.toNat
  let two := Digits.padded 2
  two dayOfMonth ++ "/" ++ two month ++ " " ++ two (clock / 3600) ++ ":"
    ++ two (clock / 60 % 60) ++ ":" ++ two (clock % 60 + t.nanos / second)

end Instant

end Vigil
