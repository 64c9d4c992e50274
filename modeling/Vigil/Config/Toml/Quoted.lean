import Vigil.Config.Toml.Token

/-!
# Vigil.Config.Toml.Quoted — texts as TOML strings

A text is written in the plainest form that needs no escapes: in quotes, in
apostrophes, in three quotes, in three apostrophes. A text that needs escapes
stands in quotes, and one with line breaks in three.

* `Toml.Form.ofText` — the form of a text.
* `Toml.quoted` — a text as a setting.
* `Toml.isQuotable` — whether a text has a form.
-/

namespace Vigil.Toml

inductive Form where
  | basic
  | literal
  | basicBlock
  | literalBlock
deriving DecidableEq, Repr

/-- Length of the longest run of a character. `sofar` is the run that ends
here. -/
def longestRun (c : Char) : (sofar : Nat) → List Char → Nat
  | sofar, [] => sofar
  | sofar, x :: rest =>
    if x = c then longestRun c (sofar + 1) rest else max sofar (longestRun c 0 rest)

/-- Whether the quotes and the apostrophes in a row can be counted, for which
there is one byte. -/
def isQuotable (s : String) : Bool :=
  longestRun '"' 0 s.toList < 256 && longestRun '\x27' 0 s.toList < 256

def Form.ofText (text : List Char) : Form :=
  let needsEscape := text.any fun c => isControl c && c ≠ '\n'
  let backslash := text.contains '\\'
  let breaks := text.contains '\n'
  let quotes := longestRun '"' 0 text
  let apostrophes := longestRun '\x27' 0 text
  if needsEscape then if breaks then .basicBlock else .basic
  else if !backslash && !breaks && quotes = 0 then .basic
  else if !breaks && apostrophes = 0 then .literal
  else if !backslash && quotes ≤ 2 then .basicBlock
  else if apostrophes ≤ 2 then .literalBlock
  else if breaks then .basicBlock
  else .basic

def escapedChar (c : Char) : List Char :=
  if c = '\\' then ['\\', '\\']
  else if c = '\t' then ['\\', 't']
  else if c = '\r' then ['\\', 'r']
  else if c = '\x08' then ['\\', 'b']
  else if c = '\x0c' then ['\\', 'f']
  else if isControl c then
    let hex := (Nat.toDigits 16 c.toNat).map Char.toUpper
    ['\\', 'u'] ++ List.replicate (4 - hex.length) '0' ++ hex
  else [c]

/-- Text between quotes. In a block, line breaks stand as they are and so do
up to two quotes in a row; `run` quotes stand before this. -/
def escaped (block : Bool) : (run : Nat) → List Char → List Char
  | _, [] => []
  | run, '"' :: rest =>
    if block ∧ run < 2 then '"' :: escaped block (run + 1) rest
    else '\\' :: '"' :: escaped block 0 rest
  | _, '\n' :: rest => (if block then ['\n'] else ['\\', 'n']) ++ escaped block 0 rest
  | _, c :: rest => escapedChar c ++ escaped block 0 rest

/-- A text as a setting. A block that holds line breaks starts on a line of
its own. -/
def quoted (s : String) : String :=
  let text := s.toList
  let start := if text.contains '\n' then "\n" else ""
  match Form.ofText text with
  | .basic => "\"" ++ String.ofList (escaped false 0 text) ++ "\""
  | .literal => "'" ++ s ++ "'"
  | .basicBlock => "\"\"\"" ++ start ++ String.ofList (escaped true 0 text) ++ "\"\"\""
  | .literalBlock => "'''" ++ start ++ s ++ "'''"

end Vigil.Toml
