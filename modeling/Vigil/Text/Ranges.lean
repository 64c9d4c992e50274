/-!
# Vigil.Text.Ranges — classes of characters by ranges of code points

A class of characters is given by the ranges of its code points, and white
space is the first of them. A large class is written as runs: how many code
points are not in it, how many are, how many are not again, and so on from zero.
The lengths of the runs are written in letters to keep the tables short.
-/

namespace Vigil.Text

/-- Whether a number lies in one of the ranges, ends included. -/
def inRanges (ranges : List (Nat × Nat)) (n : Nat) : Bool :=
  ranges.any fun (lo, hi) => lo ≤ n && n ≤ hi

/-- Whether a number lies in a class written as runs, those outside and those
inside in turn. -/
def inRuns : List Nat → Nat → Bool
  | outside :: inside :: rest, n =>
    outside ≤ n && (n < outside + inside || inRuns rest (n - outside - inside))
  | _, _ => false

/-- Numbers to the base 26, one after the other: the last digit of a number is a
small letter, and capitals are the digits before it. All else is layout. -/
def numbersFrom (high : Nat) : List Char → List Nat
  | [] => []
  | c :: rest =>
    if c.isLower then (high * 26 + (c.toNat - 'a'.toNat)) :: numbersFrom 0 rest
    else if c.isUpper then numbersFrom (high * 26 + (c.toNat - 'A'.toNat)) rest
    else numbersFrom high rest

def runs (text : String) : List Nat := numbersFrom 0 text.toList

def blankRanges : List (Nat × Nat) := [
  (0x9, 0xd), (0x20, 0x20), (0x85, 0x85), (0xa0, 0xa0), (0x1680, 0x1680), (0x2000, 0x200a),
  (0x2028, 0x2029), (0x202f, 0x202f), (0x205f, 0x205f), (0x3000, 0x3000)]

/-- White space: blanks of any width, tabs, line and page breaks. -/
def isBlank (c : Char) : Bool := inRanges blankRanges c.toNat

def trimStart (text : List Char) : List Char := text.dropWhile isBlank

def trimEnd (text : List Char) : List Char := (text.reverse.dropWhile isBlank).reverse

end Vigil.Text
