import Vigil.Json.Basic
import Vigil.Number.Word

/-!
# Vigil.Json.Number — numbers in JSON texts

An integer that fits a word is kept as it is. Any other number is a double,
found in two steps: its digits are gathered in a word as long as they fit, and
the word, made a double, is multiplied or divided by a power of ten. Digits
past the word only move the point. So a number with more digits than a double
holds may be off by the last bit.

* `Json.gather` — the word of a numeral and the power of ten that goes with it.
* `Json.scale?` — a double times a power of ten, `none` past the finite range.
-/

namespace Vigil.Json

/-- Digits taken behind `n` while the number fits a word; the number, and the
digits that are left. -/
def fill : Nat → List Char → Nat × List Char
  | n, [] => (n, [])
  | n, c :: rest =>
    let next := Digits.number n [c]
    if Word.IsUnsigned next then fill next rest else (n, c :: rest)

/-- The digits of a numeral that fit a word, and the power of ten of the last
of them. -/
def gather (n : Decimal.Numeral) : Nat × Int :=
  let (word, wholeLeft) := fill 0 n.whole
  let fraction := n.fraction.getD []
  let (word, fractionLeft) := fill word fraction
  let taken : Int := fraction.length - fractionLeft.length
  (word, (n.exponent.bind id).getD 0 + wholeLeft.length - taken)

def topPower : Nat := 308

def powerOfTen (k : Nat) : Double := Double.ofInt (Nat.pow 10 k)

/-- A double times a power of ten. A division by a power that is no double is
done in two. -/
def scale? (d : Double) (exponent : Int) : Option Double :=
  match exponent with
  | .ofNat k =>
    if d.isZero then some d
    else if topPower < k then none
    else
      let product := d.mul (powerOfTen k)
      if product.isInfinite then none else some product
  | .negSucc k =>
    let k := k + 1
    if k ≤ topPower then some (d.div (powerOfTen k))
    else if k ≤ 2 * topPower then
      some ((d.div (powerOfTen topPower)).div (powerOfTen (k - topPower)))
    else some .zero

/-- The double of a numeral, `none` past the finite range. -/
def doubleOf? (negative : Bool) (n : Decimal.Numeral) : Option Double :=
  let (word, exponent) := gather n
  (scale? (Double.ofInt word) exponent).map fun d => if negative then d.neg else d

/-- Whether JSON allows a numeral: digits before the point with no needless
zero, and digits after a point and after an exponent mark. -/
def isNumeral (n : Decimal.Numeral) : Bool :=
  let needlessZero := n.whole.head? = some '0' ∧ 1 < n.whole.length
  !n.whole.isEmpty && !needlessZero && n.fraction ≠ some [] && n.exponent ≠ some none

def ofNumeral? (negative : Bool) (n : Decimal.Numeral) : Option Json :=
  if !isNumeral n then none
  else
    let value : Int := Digits.number 0 n.whole
    let isInteger := n.fraction.isNone ∧ n.exponent.isNone
    if isInteger ∧ !negative ∧ Word.IsUnsigned value then some (.int value)
    else if isInteger ∧ negative ∧ 0 < value ∧ Word.IsSigned (-value) then some (.int (-value))
    else (doubleOf? negative n).map .float

/-- A numeral with its sign off the front of a text. -/
def scanNumber (text : List Char) : Bool × Decimal.Numeral × List Char :=
  match text with
  | '-' :: rest => (true, Decimal.scan rest)
  | _ => (false, Decimal.scan text)

def readNumber? (text : List Char) : Option (Json × List Char) :=
  let (negative, numeral, rest) := scanNumber text
  (ofNumeral? negative numeral).map fun j => (j, rest)

end Vigil.Json
