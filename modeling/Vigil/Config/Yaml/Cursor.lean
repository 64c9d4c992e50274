/-!
# Vigil.Config.Yaml.Cursor — a place in a YAML text

Where a piece of a YAML text stands matters as much as what it is, so readers
carry the text that is left together with its line and its column. `none` is a
mistake in the text.

* `Cursor` — a place in a text.
* `Cursor.lineRest?` — blanks and a comment at the end of a line.
-/

namespace Vigil.Yaml

/-! ## Characters -/

def isBlank (c : Char) : Bool := c = ' ' || c = '\t'

def isBreak (c : Char) : Bool := c = '\n' || c = '\r'

def isFlow (c : Char) : Bool := [',', '[', ']', '\x7b', '\x7d'].contains c

def isWord (c : Char) : Bool := c.isAlphanum || c = '_' || c = '-'

/-- Nothing, or a line break. -/
def isLineEnd : Option Char → Bool
  | some c => isBreak c
  | none => true

def isGap : Option Char → Bool
  | some c => isBlank c || isBreak c
  | none => true

/-! ## Places -/

structure Cursor where
  text : List Char
  line : Nat
  column : Nat
  index : Nat
  /-- Nothing but blanks stands before it on its line. -/
  leading : Bool

namespace Cursor

def start (text : List Char) : Cursor := ⟨text, 0, 0, 0, true⟩

def peek? (c : Cursor) : Option Char := c.text.head?

def second? (c : Cursor) : Option Char := c.text[1]?

def at? (c : Cursor) (isOne : Char → Bool) : Bool := c.peek?.any isOne

def blank (c : Cursor) : Cursor :=
  { c with text := c.text.drop 1, column := c.column + 1, index := c.index + 1 }

/-- Over `n` characters that are no blanks. -/
def step (c : Cursor) (n : Nat) : Cursor :=
  { c with
    text := c.text.drop n, column := c.column + n, index := c.index + n
    leading := c.leading && n = 0 }

def newline (c : Cursor) : Cursor :=
  let width := match c.text with
    | '\r' :: '\n' :: _ => 2
    | _ => 1
  ⟨c.text.drop width, c.line + 1, 0, c.index + width, true⟩

/-- Over all characters of a class, none of them blank. -/
def span (c : Cursor) (isOne : Char → Bool) : List Char × Cursor :=
  let run := c.text.takeWhile isOne
  (run, c.step run.length)

/-- Over spaces, as long as they stand before a column. -/
def spaces (c : Cursor) (column : Nat) : Cursor :=
  let run := (c.text.takeWhile (· = ' ')).length
  let run := min run (column - c.column)
  { c with text := c.text.drop run, column := c.column + run, index := c.index + run }

def blanks (c : Cursor) : Cursor :=
  let run := (c.text.takeWhile isBlank).length
  { c with text := c.text.drop run, column := c.column + run, index := c.index + run }

def comment (c : Cursor) : Cursor := (c.span fun x => !isBreak x).2

/-- Blanks and a comment at the end of a line, and the blanks that were passed.
A comment has to have blanks before it. -/
def lineRest? (c : Cursor) : Option (List Char × Cursor) :=
  let passed := c.text.takeWhile isBlank
  let rest := c.blanks
  if rest.at? (· = '#') then
    if passed.isEmpty then none else some (passed, rest.comment)
  else some (passed, rest)

def isMark (c : Cursor) (mark : Char) : Bool :=
  c.column = 0 && c.text.take 3 == [mark, mark, mark] && isGap c.text[3]?

def isDocumentMark (c : Cursor) : Bool := c.isMark '-' || c.isMark '.'

end Cursor

end Vigil.Yaml
