import Vigil.Number.Decimal

/-!
# Vigil.Json.Basic — JSON trees

The tree of a JSON document. Integers that fit a signed or unsigned 64-bit
word are kept apart from other numbers, which are doubles. An object keeps
its members in document order, repeated names included, so that a reader can
refuse a repetition.
-/

namespace Vigil

inductive Json where
  | null
  | bool (b : Bool)
  | int (i : Int)
  | float (d : Double)
  | str (s : String)
  | arr (items : List Json)
  | obj (members : List (String × Json))
deriving Repr, Inhabited

namespace Json

/-! ## Depth -/

mutual

def depth : Json → Nat
  | .arr items => depthItems items + 1
  | .obj members => depthMembers members + 1
  | _ => 0

def depthItems : List Json → Nat
  | [] => 0
  | j :: rest => max (depth j) (depthItems rest)

def depthMembers : List (String × Json) → Nat
  | [] => 0
  | (_, j) :: rest => max (depth j) (depthMembers rest)

end

/-! ## Text -/

def escapeChar (c : Char) : List Char :=
  if c = '"' then ['\\', '"']
  else if c = '\\' then ['\\', '\\']
  else if c.toNat < 0x20 then
    let hex := Nat.toDigits 16 c.toNat
    ['\\', 'u'] ++ List.replicate (4 - hex.length) '0' ++ hex
  else [c]

def stringText (s : String) : String :=
  String.ofList ('"' :: s.toList.flatMap escapeChar ++ ['"'])

/-- Digits with a point after the first, if there are more. -/
def leadingPoint : List Char → List Char
  | [] => []
  | [c] => [c]
  | c :: rest => c :: '.' :: rest

/-- Text of a finite double: positional for moderate sizes, with a digit
after the point, else with an exponent. Other doubles have no JSON form. -/
def floatText (d : Double) : String :=
  if d.isFinite then
    let sign := if d.isNegative then "-" else ""
    let (digits, exponent) := d.shortest
    let text := Nat.toDigits 10 digits
    -- digits before the point
    let size : Int := text.length + exponent
    if 16 < size ∨ size ≤ -5 then
      sign ++ String.ofList (leadingPoint text) ++ "e" ++ Digits.ofInt (size - 1)
    else if 0 ≤ exponent then sign ++ Double.positional digits exponent ++ ".0"
    else sign ++ Double.positional digits exponent
  else "null"

mutual

def text : Json → String
  | .null => "null"
  | .bool b => if b then "true" else "false"
  | .int i => Digits.ofInt i
  | .float d => floatText d
  | .str s => stringText s
  | .arr items => "[" ++ ",".intercalate (textItems items) ++ "]"
  | .obj members => "\x7b" ++ ",".intercalate (textMembers members) ++ "\x7d"

def textItems : List Json → List String
  | [] => []
  | j :: rest => text j :: textItems rest

def textMembers : List (String × Json) → List String
  | [] => []
  | (name, j) :: rest => (stringText name ++ ":" ++ text j) :: textMembers rest

end

/-! ## Members -/

def member? (name : String) : Json → Option Json
  | .obj members => members.lookup name
  | _ => none

end Json

end Vigil
