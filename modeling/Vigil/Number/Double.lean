/-!
# Vigil.Number.Double — binary64 numbers as exact integers

A double is its 64-bit word, so two doubles are equal here exactly when their
words are. Every finite magnitude is a natural number of *units* of `2^-1074`
(the least positive double), and all arithmetic is done on those integers:
an operation computes its exact result as a fraction of units and `nearest`
rounds it once, ties to the even neighbour.

* `compare?` — numeric order; unordered when a NaN takes part.
* `add`, `sub`, `mul`, `div` — correctly rounded.
* `clamp` — truncation toward zero into an integer range.
-/

namespace Vigil

structure Double where
  bits : UInt64
deriving DecidableEq, Repr, Inhabited

namespace Double

/-! ## The word -/

def signWeight : Nat := 0x8000000000000000

def exponentWeight : Nat := 0x10000000000000

/-- Units in one: a finite magnitude counts multiples of `2^-1074`. -/
def unitsPerOne : Nat := Nat.pow 2 1074

/-- The magnitude field of the infinities; larger fields are NaNs. -/
def infiniteField : Nat := 0x7ff0000000000000

/-- Whether the sign bit is set (also for zeros and NaNs). -/
def isNegative (d : Double) : Bool := signWeight ≤ d.bits.toNat

def field (d : Double) : Nat := d.bits.toNat % signWeight

def isNaN (d : Double) : Bool := infiniteField < d.field

def isInfinite (d : Double) : Bool := d.field = infiniteField

def isFinite (d : Double) : Bool := d.field < infiniteField

def isZero (d : Double) : Bool := d.field = 0

def ofField (negative : Bool) (field : Nat) : Double :=
  ⟨UInt64.ofNat (if negative then signWeight + field else field)⟩

def zero : Double := ⟨0⟩

def infinity (negative : Bool) : Double := ofField negative infiniteField

/-- The NaN an invalid operation yields. -/
def invalid : Double := ⟨0xfff8000000000000⟩

/-- The NaN written `nan`. -/
def nan : Double := ⟨0x7ff8000000000000⟩

/-- A NaN operand passes through with its quiet bit set. -/
def quiet (d : Double) : Double := ⟨d.bits ||| 0x0008000000000000⟩

/-- Sign change; it flips the sign bit of NaNs too. -/
def neg (d : Double) : Double := ofField (!d.isNegative) d.field

def abs (d : Double) : Double := ofField false d.field

/-! ## Order -/

/-- Position on the number line: the magnitude field with the sign. Both
zeros sit at `0`, and between finite doubles the order is the numeric one. -/
def rank (d : Double) : Int := if d.isNegative then -(d.field : Int) else d.field

/-- Numeric order; `none` when one of the two is a NaN. -/
def compare? (a b : Double) : Option Ordering :=
  if a.isNaN || b.isNaN then none else some (compare a.rank b.rank)

/-- Numeric equality: the zeros agree, and a NaN equals nothing. -/
def numEq (a b : Double) : Bool := a.compare? b == some .eq

/-! ## Rounding -/

/-- `num / den` to the nearest integer, ties to the even one. -/
def roundEven (num den : Nat) : Nat :=
  let q := num / den
  let twice := 2 * (num % den)
  if twice < den then q
  else if den < twice then q + 1
  else if q % 2 = 0 then q else q + 1

/-- The double nearest to `num / den` units, ties to the even significand,
beyond the largest finite magnitude an infinity.

With `s` low bits dropped and `m` the rounded significand, the magnitude
field is `s * 2^52 + m`: the hidden bit of `m` and a carry out of the
rounding both land in the exponent. -/
def nearest (negative : Bool) (num den : Nat) : Double :=
  let s := Nat.log2 (num / den) - 52
  let m := roundEven num (den * Nat.pow 2 s)
  ofField negative (min (s * exponentWeight + m) infiniteField)

/-- Magnitude of a finite double in units of `2^-1074`. -/
def units (d : Double) : Nat :=
  let e := d.field / exponentWeight
  let f := d.field % exponentWeight
  if e = 0 then f else (exponentWeight + f) * Nat.pow 2 (e - 1)

/-- Value of a finite double in units of `2^-1074`. -/
def signedUnits (d : Double) : Int := if d.isNegative then -(d.units : Int) else d.units

def ofInt (i : Int) : Double := nearest (i < 0) (i.natAbs * unitsPerOne) 1

/-- The double nearest to `mantissa * 10^exponent`, `none` past the finite
range. Exponents far outside the range of doubles are settled by their size. -/
def ofDecimal? (negative : Bool) (mantissa : Nat) (exponent : Int) : Option Double :=
  let digits := Nat.log2 mantissa + 1
  if mantissa = 0 then some (ofField negative 0)
  else if exponent < -(1100 + digits : Int) then some (ofField negative 0)
  else if 400 < exponent then none
  else
    let d :=
      match exponent with
      | .ofNat k => nearest negative (mantissa * Nat.pow 10 k * unitsPerOne) 1
      | .negSucc k => nearest negative (mantissa * unitsPerOne) (Nat.pow 10 (k + 1))
    if d.isInfinite then none else some d

/-! ## Arithmetic -/

def add (a b : Double) : Double :=
  if a.isNaN then a.quiet
  else if b.isNaN then b.quiet
  else if a.isInfinite then
    if b.isInfinite && a.isNegative != b.isNegative then invalid else a
  else if b.isInfinite then b
  else
    let sum := a.signedUnits + b.signedUnits
    if sum = 0 then ofField (a.isNegative && b.isNegative) 0
    else nearest (sum < 0) sum.natAbs 1

/-- A NaN operand keeps its sign, so subtraction is not addition of the
negated number there. -/
def sub (a b : Double) : Double :=
  if a.isNaN then a.quiet else if b.isNaN then b.quiet else add a b.neg

def mul (a b : Double) : Double :=
  let negative := a.isNegative != b.isNegative
  if a.isNaN then a.quiet
  else if b.isNaN then b.quiet
  else if a.isInfinite || b.isInfinite then
    if a.isZero || b.isZero then invalid else infinity negative
  else nearest negative (a.units * b.units) unitsPerOne

def div (a b : Double) : Double :=
  let negative := a.isNegative != b.isNegative
  if a.isNaN then a.quiet
  else if b.isNaN then b.quiet
  else if a.isInfinite then
    if b.isInfinite then invalid else infinity negative
  else if b.isInfinite then ofField negative 0
  else if b.isZero then
    if a.isZero then invalid else infinity negative
  else nearest negative (a.units * unitsPerOne) b.units

/-! ## To integers -/

/-- Truncation toward zero into `lo .. hi`; out-of-range values stop at the
nearer end and a NaN gives `0`. -/
def clamp (lo hi : Int) (d : Double) : Int :=
  if d.isNaN then 0
  else if d.isInfinite then (if d.isNegative then lo else hi)
  else max lo (min hi (d.signedUnits.tdiv unitsPerOne))

/-- Largest integral double not above `d`, for finite `d`. -/
def floor (d : Double) : Double :=
  if d.isFinite then
    let whole := d.signedUnits.fdiv unitsPerOne
    if whole = 0 then ofField d.isNegative 0 else ofInt whole
  else d

/-- Nearest integral double, halves away from zero. -/
def roundAway (d : Double) : Double :=
  if d.isFinite then
    nearest d.isNegative (((2 * d.units + unitsPerOne) / (2 * unitsPerOne)) * unitsPerOne) 1
  else d

end Double

end Vigil
