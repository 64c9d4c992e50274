import Vigil.Text.Utf8

/-!
# Vigil.Json.Token — blanks and strings in JSON texts

A string is read up to its closing quote. Control characters have to be
escaped, and escaped surrogates have to form pairs.
-/

namespace Vigil.Json

/-! ## Blanks -/

def isBlank (c : Char) : Bool := c = ' ' || c = '\n' || c = '\t' || c = '\r'

def skipBlanks (text : List Char) : List Char := text.dropWhile isBlank

/-! ## Strings -/

def hexUnit? (a b c d : Char) : Option Nat := Hex.number? [a, b, c, d]

def shortEscape? : Char → Option Char
  | '"' => some '"'
  | '\\' => some '\\'
  | '/' => some '/'
  | 'b' => some '\x08'
  | 'f' => some '\x0c'
  | 'n' => some '\n'
  | 'r' => some '\r'
  | 't' => some '\t'
  | _ => none

def stringBody? : List Char → Option (List Char × List Char)
  | [] => none
  | '"' :: rest => some ([], rest)
  | '\\' :: 'u' :: a :: b :: c :: d :: rest =>
    match hexUnit? a b c d with
    | none => none
    | some unit =>
      if unit < 0xD800 ∨ 0xDFFF < unit then
        (stringBody? rest).map fun (s, r) => (Char.ofNat unit :: s, r)
      else if 0xDBFF < unit then none
      else
        -- the first half of a pair has to be followed by the second
        match rest with
        | '\\' :: 'u' :: e :: f :: g :: h :: rest =>
          match hexUnit? e f g h with
          | none => none
          | some low =>
            if low < 0xDC00 ∨ 0xDFFF < low then none
            else
              let code := 0x10000 + (unit - 0xD800) * 0x400 + (low - 0xDC00)
              (stringBody? rest).map fun (s, r) => (Char.ofNat code :: s, r)
        | _ => none
  | '\\' :: c :: rest =>
    match shortEscape? c with
    | none => none
    | some e => (stringBody? rest).map fun (s, r) => (e :: s, r)
  | c :: rest =>
    if c.toNat < 0x20 ∨ c = '\\' then none
    else (stringBody? rest).map fun (s, r) => (c :: s, r)

end Vigil.Json
