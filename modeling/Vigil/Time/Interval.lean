import Vigil.Number.Decimal
import Vigil.Number.Word

/-!
# Vigil.Time.Interval — signed lengths of time

An interval is a number of nanoseconds within `±(2^63 - 1)` milliseconds. The
bound is part of the type; addition and subtraction can leave it and then
have no result. Whole seconds, milliseconds and the sub-second rest are all
taken toward zero, so both parts of a negative interval are negative.
-/

namespace Vigil

def Interval.maxNanos : Nat := 0x7fffffffffffffff * 1000000

structure Interval where
  nanos : Int
  inRange : nanos.natAbs ≤ Interval.maxNanos
deriving DecidableEq, Repr

namespace Interval

def second : Int := 1000000000

def milli : Int := 1000000

def ofNanos? (n : Int) : Option Interval :=
  if h : n.natAbs ≤ maxNanos then some ⟨n, h⟩ else none

def zero : Interval := ⟨0, by decide⟩

instance : Inhabited Interval := ⟨zero⟩

def isZero (d : Interval) : Bool := d.nanos = 0

def neg (d : Interval) : Interval :=
  ⟨-d.nanos, by rw [Int.natAbs_neg]; exact d.inRange⟩

def abs (d : Interval) : Interval :=
  ⟨d.nanos.natAbs, by rw [Int.natAbs_natCast]; exact d.inRange⟩

def add? (a b : Interval) : Option Interval := ofNanos? (a.nanos + b.nanos)

def sub? (a b : Interval) : Option Interval := ofNanos? (a.nanos - b.nanos)

/-! ## Parts, toward zero -/

def wholeSeconds (d : Interval) : Int := d.nanos.tdiv second

def subsecNanos (d : Interval) : Int := d.nanos.tmod second

def wholeMillis (d : Interval) : Int := d.nanos.tdiv milli

/-- The interval with the given whole seconds and sub-second nanoseconds.
The seconds alone must be in range as well. -/
def ofParts? (seconds nanos : Int) : Option Interval := do
  let whole ← ofNanos? (seconds * second)
  let rest ← ofNanos? nanos
  whole.add? rest

/-! ## As a number of seconds -/

/-- Nanoseconds when they fit a signed 64-bit word. -/
def wordNanos? (d : Interval) : Option Int :=
  if Word.IsSigned d.nanos then some d.nanos else none

/-- Length in seconds: through nanoseconds while they fit a word, and beyond
that in whole seconds. -/
def toSeconds (d : Interval) : Double :=
  match d.wordNanos? with
  | some n => (Double.ofInt n).div (Double.ofInt second)
  | none => Double.ofInt d.wholeSeconds

end Interval

theorem Double.clamp_bounds {lo hi : Int} (d : Double) (hlo : lo ≤ 0) (hhi : 0 ≤ hi) :
    lo ≤ d.clamp lo hi ∧ d.clamp lo hi ≤ hi := by
  unfold Double.clamp
  split
  · exact ⟨hlo, hhi⟩
  · split
    · split <;> omega
    · omega

namespace Interval

/-- The interval of that many seconds, truncated to nanoseconds and held to
the range of a signed 64-bit word. -/
def ofSeconds (secs : Double) : Interval :=
  ⟨(secs.mul (Double.ofInt second)).clamp Word.minSigned Word.maxSigned, by
    have h := Double.clamp_bounds (secs.mul (Double.ofInt second))
      (show Word.minSigned ≤ 0 by decide) (show 0 ≤ Word.maxSigned by decide)
    have hmin : Word.minSigned = -9223372036854775808 := by decide
    have hmax : Word.maxSigned = 9223372036854775807 := by decide
    have hbound : maxNanos = 9223372036854775807000000 := by decide
    omega⟩

/-- Milliseconds shown as a number of seconds. -/
def text (d : Interval) : String :=
  ((Double.ofInt d.wholeMillis).div (Double.ofInt 1000)).plain ++ " secs"

end Interval

end Vigil
