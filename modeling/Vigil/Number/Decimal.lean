import Vigil.Number.Double

/-!
# Vigil.Number.Decimal — decimal text of numbers

* `Double.fixed` — a fixed number of places, the exact value rounded once,
  a tie to the even digit.
* `Double.shortest` — the fewest significant digits that read back as the
  same double, and of those the nearest to it.
* `Double.plain` — those digits written positionally, without an exponent.
* `Decimal.scan` — the decimal grammar `digits [. digits] [e [sign] digits]`.
-/

namespace Vigil

/-! ## Digits -/

namespace Digits

/-- Decimal text of a natural number, with leading zeros up to `width`. -/
def padded (width n : Nat) : String :=
  let text := Nat.toDigits 10 n
  String.ofList (List.replicate (width - text.length) '0' ++ text)

def ofInt (i : Int) : String :=
  if i < 0 then "-" ++ padded 1 i.natAbs else padded 1 i.natAbs

def value? (c : Char) : Option Nat :=
  if '0' ≤ c ∧ c ≤ '9' then some (c.toNat - 48) else none

def number (start : Nat) (digits : List Char) : Nat :=
  digits.foldl (fun n c => 10 * n + (c.toNat - 48)) start

def isDigit (c : Char) : Bool := (value? c).isSome

/-- A non-empty run of decimal digits and nothing else. -/
def natural? (text : List Char) : Option Nat :=
  if text.isEmpty || !text.all isDigit then none else some (number 0 text)

/-- An optional sign (`+` only where `plus` allows it) and a run of digits. -/
def integer? (plus : Bool) : List Char → Option Int
  | '-' :: rest => (natural? rest).map fun n => -(n : Int)
  | '+' :: rest => if plus then (natural? rest).map Int.ofNat else none
  | text => (natural? text).map Int.ofNat

end Digits

/-! ## Reading -/

namespace Decimal

structure Numeral where
  whole : List Char
  /-- Digits after the point, `none` without a point. -/
  fraction : Option (List Char)
  /-- Exponent, `none` without an exponent mark. An exponent mark with no
  digit after it leaves `some none`. -/
  exponent : Option (Option Int)
deriving Repr

def scan (text : List Char) : Numeral × List Char :=
  let whole := text.takeWhile Digits.isDigit
  let (fraction, rest) :=
    match text.dropWhile Digits.isDigit with
    | '.' :: rest => (some (rest.takeWhile Digits.isDigit), rest.dropWhile Digits.isDigit)
    | rest => (none, rest)
  let exponentPart (rest : List Char) : Option (Option Int) × List Char :=
    let (negative, digits) :=
      match rest with
      | '-' :: r => (true, r)
      | '+' :: r => (false, r)
      | r => (false, r)
    let run := digits.takeWhile Digits.isDigit
    let value : Int := Digits.number 0 run
    (some (if run.isEmpty then none else some (if negative then -value else value)),
      digits.dropWhile Digits.isDigit)
  let (exponent, rest) :=
    match rest with
    | 'e' :: r => exponentPart r
    | 'E' :: r => exponentPart r
    | r => (none, r)
  (⟨whole, fraction, exponent⟩, rest)

/-- Nearest double of a numeral, `none` past the finite range. -/
def Numeral.toDouble? (n : Numeral) (negative : Bool) : Option Double :=
  let fraction := n.fraction.getD []
  let exponent := (n.exponent.bind id).getD 0
  Double.ofDecimal? negative (Digits.number (Digits.number 0 n.whole) fraction)
    (exponent - fraction.length)

end Decimal

/-- Double a text spells: a decimal numeral, an infinity or a NaN, with an
optional sign. A numeral past the finite range is infinite. -/
def Double.ofText? (text : String) : Option Double :=
  let (negative, rest) :=
    match text.toList with
    | '-' :: r => (true, r)
    | '+' :: r => (false, r)
    | r => (false, r)
  let infinity := Double.infinity negative
  let word := (String.ofList rest).toLower
  if word = "inf" ∨ word = "infinity" then some infinity
  else if word = "nan" then some Double.nan
  else
    let (n, rest) := Decimal.scan rest
    let noDigits := n.whole.isEmpty ∧ (n.fraction.getD []).isEmpty
    if !rest.isEmpty ∨ noDigits ∨ n.exponent = some none then none
    else some ((n.toDouble? negative).getD infinity)

/-! ## Writing -/

namespace Double

/-- Fixed notation with `places` digits after the point. -/
def fixed (places : Nat) (d : Double) : String :=
  if d.isNaN then "NaN"
  else
    let sign := if d.isNegative then "-" else ""
    if d.isInfinite then sign ++ "inf"
    else
      let scale := Nat.pow 10 places
      let scaled := roundEven (d.units * scale) unitsPerOne
      let whole := Digits.padded 1 (scaled / scale)
      if places = 0 then sign ++ whole
      else sign ++ whole ++ "." ++ Digits.padded places (scaled % scale)

/-- Exponent of the leading decimal digit of a positive number of units:
the greatest `e` with `10^e` at most that many units. -/
def leadingExponent (units : Nat) : Int :=
  if unitsPerOne ≤ units then ((Nat.toDigits 10 (units / unitsPerOne)).length : Int) - 1
  else
    -- the first power of ten that lifts the number to one
    match (List.range 330).find? fun k => unitsPerOne ≤ units * Nat.pow 10 (k + 1) with
    | some k => -(k + 1 : Int)
    | none => -330

/-- The digits of a finite magnitude on the grid of multiples of `10^exponent`:
the two neighbours of the value, the nearer first. -/
def gridNeighbours (units : Nat) (exponent : Int) : List Nat :=
  let (num, den) :=
    match exponent with
    | .ofNat k => (units, unitsPerOne * Nat.pow 10 k)
    | .negSucc k => (units * Nat.pow 10 (k + 1), unitsPerOne)
  let low := num / den
  if 2 * (num % den) < den then [low, low + 1] else [low + 1, low]

/-- Drop trailing zeros of a digit string, counting them into the exponent. -/
def normalize : Nat → Nat → Int → Nat × Int
  | 0, digits, exponent => (digits, exponent)
  | fuel + 1, digits, exponent =>
    if digits ≠ 0 ∧ digits % 10 = 0 then normalize fuel (digits / 10) (exponent + 1)
    else (digits, exponent)

/-- Fewest significant digits, and their exponent, that read back as the
magnitude of the finite double `d`. -/
def shortest (d : Double) : Nat × Int :=
  if d.isZero then (0, 0)
  else
    let magnitude := d.abs
    let top := leadingExponent d.units
    let hit := (List.range 17).findSome? fun (n : Nat) =>
      let exponent := top - n
      (gridNeighbours d.units exponent).findSome? fun digits =>
        if ofDecimal? false digits exponent = some magnitude then some (digits, exponent)
        else none
    match hit with
    | some (digits, exponent) => normalize 20 digits exponent
    | none => (0, 0)

def positional (digits : Nat) (exponent : Int) : String :=
  let text := Nat.toDigits 10 digits
  match exponent with
  | .ofNat k => String.ofList (text ++ (if digits = 0 then [] else List.replicate k '0'))
  | .negSucc k =>
    let text := List.replicate (k + 2 - text.length) '0' ++ text
    String.ofList (text.take (text.length - (k + 1)) ++ ['.'] ++ text.drop (text.length - (k + 1)))

/-- Shortest positional text, an integral value without a point. -/
def plain (d : Double) : String :=
  if d.isNaN then "NaN"
  else
    let sign := if d.isNegative then "-" else ""
    if d.isInfinite then sign ++ "inf"
    else
      let (digits, exponent) := d.shortest
      sign ++ positional digits exponent

end Double

end Vigil
