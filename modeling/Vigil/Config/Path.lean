import Vigil.Config.Setting

/-!
# Vigil.Config.Path — paths to settings, as text

A path starts with a name. A point leads to a name below, and a number in
brackets to an item: `log.filter`, `engine[1]`. A text that is no path is the
name of one entry.
-/

namespace Vigil.Setting

def isNameChar (c : Char) : Bool := c.isAlphanum || c = '_' || c = '-' || c = ' '

def name? (text : List Char) : Option (String × List Char) :=
  let name := text.takeWhile isNameChar
  if name.isEmpty then none else some (String.ofList name, text.dropWhile isNameChar)

def isPad (c : Char) : Bool := c = ' ' || c = '\t'

/-- A number that fits a signed word and the closing bracket after it. -/
def index? (text : List Char) : Option (Int × List Char) :=
  let text := text.dropWhile isPad
  let (negative, text) :=
    match text with
    | '-' :: rest => (true, rest)
    | text => (false, text)
  let digits := text.takeWhile Digits.isDigit
  let n : Int := Digits.number 0 digits
  let n := if negative then -n else n
  match (text.dropWhile Digits.isDigit).dropWhile isPad with
  | ']' :: rest => if digits.isEmpty ∨ ¬ Word.IsSigned n then none else some (n, rest)
  | _ => none

def steps? : (budget : Nat) → List Char → Option (List Step)
  | _, [] => some []
  | 0, _ :: _ => none
  | budget + 1, '.' :: rest => do
    let (name, rest) ← name? rest
    pure (.key name :: (← steps? budget rest))
  | budget + 1, '[' :: rest => do
    let (index, rest) ← index? rest
    pure (.item index :: (← steps? budget rest))
  | _, _ => none

def path? (text : String) : Option (List Step) := do
  let chars := text.toList
  let (name, rest) ← name? chars
  pure (.key name :: (← steps? chars.length rest))

/-- The path a text spells, or the text as the name of one entry. -/
def path (text : String) : List Step := (path? text).getD [.key text]

end Vigil.Setting
