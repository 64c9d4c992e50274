import Vigil.Text.Utf8

/-!
# Vigil.Config.Toml.Token — blanks, comments, strings and keys

Every reader takes text off the front and gives the rest; `none` is a mistake
in the text.
-/

namespace Vigil.Toml

/-! ## Blanks -/

def isBlank (c : Char) : Bool := c = ' ' || c = '\t'

def skipBlanks (text : List Char) : List Char := text.dropWhile isBlank

/-- Characters no text may contain, tabs apart. -/
def isControl (c : Char) : Bool := (c.toNat < 0x20 && c ≠ '\t') || c.toNat = 0x7f

def newline? : List Char → Option (List Char)
  | '\n' :: rest => some rest
  | '\r' :: '\n' :: rest => some rest
  | _ => none

def skipComment? (text : List Char) : Option (List Char) :=
  match skipBlanks text with
  | '#' :: rest =>
    let rest := rest.dropWhile fun c => !isControl c
    if rest.isEmpty || (newline? rest).isSome then some rest else none
  | rest => some rest

def skipSpace? : (budget : Nat) → List Char → Option (List Char)
  | 0, text => some text
  | budget + 1, text => do
    let rest ← skipComment? text
    match newline? rest with
    | some rest => skipSpace? budget rest
    | none => pure rest

/-- The end of a line: nothing but blanks and a comment before the break. -/
def lineEnd? (text : List Char) : Option (List Char) := do
  let rest ← skipComment? text
  if rest.isEmpty then pure [] else newline? rest

/-! ## Strings -/

def codePoint? (digits : List Char) : Option Char := do
  let n ← Hex.number? digits
  if n.isValidChar then some (Char.ofNat n) else none

def shortEscape? : Char → Option Char
  | 'b' => some '\x08'
  | 't' => some '\t'
  | 'n' => some '\n'
  | 'f' => some '\x0c'
  | 'r' => some '\r'
  | '"' => some '"'
  | '\\' => some '\\'
  | _ => none

def escape? : List Char → Option (Char × List Char)
  | 'u' :: a :: b :: c :: d :: rest => (codePoint? [a, b, c, d]).map (·, rest)
  | 'U' :: a :: b :: c :: d :: e :: f :: g :: h :: rest =>
    (codePoint? [a, b, c, d, e, f, g, h]).map (·, rest)
  | c :: rest => (shortEscape? c).map (·, rest)
  | [] => none

def lineString? (quote : Char) : (budget : Nat) → List Char → Option (List Char × List Char)
  | 0, _ => none
  | _, [] => none
  | budget + 1, c :: rest =>
    if c = quote then some ([], rest)
    else if quote = '"' ∧ c = '\\' then do
      let (x, rest) ← escape? rest
      let (s, rest) ← lineString? quote budget rest
      pure (x :: s, rest)
    else if isControl c then none
    else (lineString? quote budget rest).map fun (s, r) => (c :: s, r)

def skipLines : List Char → List Char
  | [] => []
  | '\r' :: '\n' :: rest => skipLines rest
  | c :: rest => if isBlank c ∨ c = '\n' then skipLines rest else c :: rest

/-- White space after a backslash that stands at the end of a line. -/
def skipFold? (text : List Char) : Option (List Char) :=
  (newline? (skipBlanks text)).map skipLines

/-- The rest of a string over several lines, after its opening quotes. Up to
two quotes may stand before the three that close it. -/
def blockString? (quote : Char) : (budget : Nat) → List Char → Option (List Char × List Char)
  | 0, _ => none
  | _, [] => none
  | budget + 1, c :: rest =>
    let quotes := ((c :: rest).takeWhile (· = quote)).length
    if 3 ≤ quotes then
      let inside := min (quotes - 3) 2
      some (List.replicate inside quote, (c :: rest).drop (inside + 3))
    else if quote = '"' ∧ c = '\\' then
      match skipFold? rest with
      | some rest => blockString? quote budget rest
      | none => do
        let (x, rest) ← escape? rest
        let (s, rest) ← blockString? quote budget rest
        pure (x :: s, rest)
    else
      match newline? (c :: rest) with
      | some rest => (blockString? quote budget rest).map fun (s, r) => ('\n' :: s, r)
      | none =>
        if isControl c then none
        else (blockString? quote budget rest).map fun (s, r) => (c :: s, r)

/-- The rest of a string after its first quote. A line break right after three
quotes does not count. -/
def string? (quote : Char) (text : List Char) : Option (String × List Char) :=
  let body := match text with
    | a :: b :: rest =>
      if a = quote ∧ b = quote then
        blockString? quote (text.length + 1) ((newline? rest).getD rest)
      else lineString? quote (text.length + 1) text
    | text => lineString? quote (text.length + 1) text
  body.map fun (s, r) => (String.ofList s, r)

/-! ## Keys -/

def isKeyChar (c : Char) : Bool := c.isAlphanum || c = '_' || c = '-'

def simpleKey? (text : List Char) : Option (String × List Char) :=
  match text with
  | '"' :: rest => (lineString? '"' (text.length + 1) rest).map fun (s, r) => (String.ofList s, r)
  | '\x27' :: rest =>
    (lineString? '\x27' (text.length + 1) rest).map fun (s, r) => (String.ofList s, r)
  | text =>
    let key := text.takeWhile isKeyChar
    if key.isEmpty then none else some (String.ofList key, text.dropWhile isKeyChar)

/-- Parts a key may have, and levels values may nest to. -/
def maxNesting : Nat := 79

/-- A key: parts with points between them, at most `parts` of them. -/
def keyWithin? : (parts : Nat) → List Char → Option (List String × List Char)
  | 0, _ => none
  | parts + 1, text => do
    let (part, rest) ← simpleKey? (skipBlanks text)
    match skipBlanks rest with
    | '.' :: rest =>
      let (more, rest) ← keyWithin? parts rest
      pure (part :: more, rest)
    | rest => pure ([part], rest)

def key? (text : List Char) : Option (List String × List Char) := keyWithin? maxNesting text

end Vigil.Toml
