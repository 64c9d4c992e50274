import Vigil.Number.Decimal
import Vigil.Number.Word

/-!
# Vigil.Config.Setting — trees of settings

Settings come in layers. A later layer is put over an earlier one entry by
entry: tables are joined, anything else is replaced. What is read from a
setting is taken generously: a truth value may be written as a number or a
word, a number as a truth value or a text.

* `Setting.put?` — put a setting at a path into a tree.
* `Setting.bool?`, `Setting.count?`, `Setting.text?` — what a setting says.
-/

namespace Vigil

inductive Setting where
  /-- An item of a list that was never given. -/
  | unset
  | bool (b : Bool)
  | int (i : Int)
  | float (d : Double)
  | str (s : String)
  | list (items : List Setting)
  | table (entries : List (String × Setting))
deriving Inhabited

inductive SettingFault where
  | malformed
  /-- It holds what cannot be a setting, and the program ends at once. -/
  | aborted
deriving DecidableEq, Repr

namespace Setting

/-! ## Tables and lists -/

/-- Entries of a table; anything else has none. -/
def entries : Setting → List (String × Setting)
  | .table es => es
  | _ => []

/-- Items of a list; anything else has none. -/
def items : Setting → List Setting
  | .list xs => xs
  | _ => []

def get? (key : String) (s : Setting) : Option Setting := s.entries.lookup key

def insertEntry {α : Type} (key : String) (v : α) : List (String × α) → List (String × α)
  | [] => [(key, v)]
  | (k, old) :: rest => if k = key then (k, v) :: rest else (k, old) :: insertEntry key v rest

/-- Replace an item; a list that is too short grows. -/
def setItem (n : Nat) (v : Setting) (xs : List Setting) : List Setting :=
  (xs ++ List.replicate (n + 1 - xs.length) Setting.unset).set n v

/-! ## Paths -/

inductive Step where
  | key (name : String)
  /-- A position in a list; a negative one counts from the end. -/
  | item (index : Int)
deriving DecidableEq, Repr

/-- The small letter of a letter that can be part of a name. Of all others
only the Kelvin sign has one that can. -/
def lowerChar (c : Char) : Char := if c = '\u212a' then 'k' else c.toLower

/-- Names do not depend on case. -/
def lowerName (name : String) : String := String.ofList (name.toList.map lowerChar)

mutual

/-- Put a setting under a name: tables are joined, anything else replaces what
was there. -/
def join (name : String) : Setting → Setting → Setting
  | .table es, s =>
    let key := lowerName name
    .table (insertEntry key (joinEach es ((s.get? key).getD (.table []))) s.entries)
  | v, s => .table (insertEntry (lowerName name) v s.entries)

def joinEach : List (String × Setting) → Setting → Setting
  | [], s => s
  | (name, v) :: rest, s => joinEach rest (join name v s)

end

def maxItems : Int := 16777216

/-- Place of an item in a list of that length; `none` before its start, and
where a list cannot reach. -/
def position? (length : Nat) (index : Int) : Option Nat :=
  let i := if 0 ≤ index then index else length + index
  if 0 ≤ i ∧ i < maxItems then some i.toNat else none

/-- Put a setting at a path. What stands in the way becomes the table or list
that the path needs; `none` if a list does not reach there. -/
def put? : List Step → Setting → Setting → Option Setting
  | [], v, _ => some v
  | [.key name], v, s => some (join name v s)
  | .key name :: path, v, s => do
    let key := lowerName name
    let child ← put? path v ((s.get? key).getD .unset)
    pure (.table (insertEntry key child s.entries))
  | .item index :: path, v, s => do
    let n ← position? s.items.length index
    let child ← put? path v (s.items[n]?.getD .unset)
    pure (.list (setItem n child s.items))

/-! ## Reading -/

def isTrueWord (s : String) : Bool := s = "true" || s = "on" || s = "yes"

def isFalseWord (s : String) : Bool := s = "false" || s = "off" || s = "no"

def bool? : Setting → Option Bool
  | .bool b => some b
  | .int i => some (i ≠ 0)
  | .float d => some !d.isZero
  | .str s =>
    let word := s.toLower
    if word = "1" || isTrueWord word then some true
    else if word = "0" || isFalseWord word then some false
    else none
  | .unset | .list _ | .table _ => none

/-- A double as a count: rounded, and held within a word. -/
def countOf (d : Double) : Nat := (Double.clamp 0 Word.maxUnsigned d.roundAway).toNat

def count? : Setting → Option Nat
  | .bool b => some b.toNat
  | .int i => if 0 ≤ i then some i.toNat else none
  | .float d => some (countOf d)
  | .str s =>
    let word := s.toLower
    if isTrueWord word then some 1
    else if isFalseWord word then some 0
    else do
      let i ← Digits.integer? true s.toList
      if Word.IsUnsigned i ∧ s.toList.head? ≠ some '-' then some i.toNat else none
  | .unset | .list _ | .table _ => none

def text? : Setting → Option String
  | .bool b => some (if b then "true" else "false")
  | .int i => some (Digits.ofInt i)
  | .float d => some d.plain
  | .str s => some s
  | .unset | .list _ | .table _ => none

end Setting

end Vigil
