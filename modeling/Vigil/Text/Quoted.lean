import Vigil.Text.Hidden

/-!
# Vigil.Text.Quoted — string constants in double quotes

A constant is shown between double quotes, so that its ends and every
character of it can be told: the quote and the backslash are escaped, the
common controls have a letter, and a character with no visible form of its
own is written as its hexadecimal number in braces.
-/

namespace Vigil.Text

def quoteChar (c : Char) : List Char :=
  if c = '\x00' then ['\\', '0']
  else if c = '\t' then ['\\', 't']
  else if c = '\r' then ['\\', 'r']
  else if c = '\n' then ['\\', 'n']
  else if c = '"' then ['\\', '"']
  else if c = '\\' then ['\\', '\\']
  else if isHidden c then
    ['\\', 'u', '\x7b'] ++ Nat.toDigits 16 c.toNat ++ ['\x7d']
  else [c]

def quote (text : String) : String :=
  String.ofList ('"' :: text.toList.flatMap quoteChar ++ ['"'])

end Vigil.Text
