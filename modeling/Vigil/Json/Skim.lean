import Vigil.Json.Number
import Vigil.Json.Token

/-!
# Vigil.Json.Skim — passing over a JSON value

A value that nobody looks at only has to follow the grammar. Its numbers may
have any size, its escapes may name half a surrogate pair, and it may nest to
any depth.
-/

namespace Vigil.Json

/-- Text after the closing quote of a string whose escapes are not resolved. -/
def skimString? : List Char → Option (List Char)
  | [] => none
  | '"' :: rest => some rest
  | '\\' :: 'u' :: a :: b :: c :: d :: rest =>
    if (hexUnit? a b c d).isSome then skimString? rest else none
  | '\\' :: c :: rest => if (shortEscape? c).isSome then skimString? rest else none
  | c :: rest => if c.toNat < 0x20 ∨ c = '\\' then none else skimString? rest

def skimNumber? (text : List Char) : Option (List Char) :=
  let (_, numeral, rest) := scanNumber text
  if isNumeral numeral then some rest else none

/-- Text after the name of a member and its colon. -/
def skimName? (text : List Char) : Option (List Char) :=
  match skipBlanks text with
  | '"' :: rest =>
    match (skimString? rest).map skipBlanks with
    | some (':' :: rest) => some rest
    | _ => none
  | _ => none

inductive Enclosure where
  | array
  | object

mutual

/-- Text after the value here and after what is left of its enclosures, the
innermost first. -/
def skim? : (budget : Nat) → List Enclosure → List Char → Option (List Char)
  | 0, _, _ => none
  | budget + 1, outer, text =>
    match skipBlanks text with
    | 'n' :: 'u' :: 'l' :: 'l' :: rest => skimRest? budget outer rest
    | 't' :: 'r' :: 'u' :: 'e' :: rest => skimRest? budget outer rest
    | 'f' :: 'a' :: 'l' :: 's' :: 'e' :: rest => skimRest? budget outer rest
    | '"' :: rest => (skimString? rest).bind (skimRest? budget outer)
    | '[' :: rest =>
      match skipBlanks rest with
      | ']' :: rest => skimRest? budget outer rest
      | rest => skim? budget (.array :: outer) rest
    | '\x7b' :: rest =>
      match skipBlanks rest with
      | '\x7d' :: rest => skimRest? budget outer rest
      | rest => (skimName? rest).bind (skim? budget (.object :: outer))
    | rest => (skimNumber? rest).bind (skimRest? budget outer)

/-- Text after what is left of the enclosures of a value that has ended. -/
def skimRest? : (budget : Nat) → List Enclosure → List Char → Option (List Char)
  | _, [], text => some text
  | 0, _ :: _, _ => none
  | budget + 1, .array :: outer, text =>
    match skipBlanks text with
    | ',' :: rest => skim? budget (.array :: outer) rest
    | ']' :: rest => skimRest? budget outer rest
    | _ => none
  | budget + 1, .object :: outer, text =>
    match skipBlanks text with
    | ',' :: rest => (skimName? rest).bind (skim? budget (.object :: outer))
    | '\x7d' :: rest => skimRest? budget outer rest
    | _ => none

end

end Vigil.Json
