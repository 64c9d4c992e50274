import Vigil.Config.Yaml.Cursor
import Vigil.Text.Utf8

/-!
# Vigil.Config.Yaml.Token — the marks of a YAML text

A YAML text is a row of tokens: the marks of documents and collections, the
texts in them, and the names and tags of nodes. The names, tags and directives
are read here. `none` is a mistake in the text.

* `Token` — one piece of a YAML text.
* `anchor?`, `tag?`, `directive?` — the tokens that are read by themselves.
-/

namespace Vigil.Yaml

inductive Token where
  | version
  /-- What a handle of tags stands for. -/
  | handle (name start : String)
  | documentStart
  | documentEnd
  /-- Begin and end of a collection that indentation shows. -/
  | blockSequence
  | blockMapping
  | blockEnd
  /-- Begin and end of a collection in brackets. -/
  | flowSequence
  | flowSequenceEnd
  | flowMapping
  | flowMappingEnd
  | entry
  | comma
  | key
  | value
  | again (name : String)
  | anchor (name : String)
  | tag (handle suffix : String)
  | scalar (plain : Bool) (text : String)
deriving DecidableEq, Repr

/-! ## Names of nodes -/

def isAnchorChar (c : Char) : Bool := !(isBreak c || isBlank c || isFlow c || c = '\ufeff')

def anchor? (c : Cursor) : Option (String × Cursor) :=
  let (name, rest) := (c.step 1).span isAnchorChar
  if name.isEmpty then none else some (String.ofList name, rest)

/-! ## Tags -/

def isUriChar (c : Char) : Bool := isWord c || "#;/?:@&=+$,.!~*'()[]%".toList.contains c

def isTagChar (c : Char) : Bool := isUriChar c && !isFlow c && c ≠ '!'

def uriWidth? (first : Nat) : Option Nat :=
  if first < 0x80 then some 1
  else if 0xC0 ≤ first ∧ first < 0xE0 then some 2
  else if 0xE0 ≤ first ∧ first < 0xF0 then some 3
  else if 0xF0 ≤ first ∧ first < 0xF8 then some 4
  else none

/-- A character written as bytes in hexadecimal, each after a percent sign. The
bytes are those of the number of the character. -/
def uriEscape? (c : Cursor) : Option (Char × Cursor) := do
  let byte? (k : Nat) : Option Nat := match c.text.drop (3 * k) with
    | '%' :: a :: b :: _ => Hex.number? [a, b]
    | _ => none
  let first ← byte? 0
  let width ← uriWidth? first
  let code ← (List.range (width - 1)).foldlM (fun n k => do
    let b ← byte? (k + 1)
    if 0x80 ≤ b ∧ b < 0xC0 then some (0x100 * n + b) else none) first
  if code.isValidChar then pure (Char.ofNat code, c.step (3 * width)) else none

def uri? (isOne : Char → Bool) : (budget : Nat) → Cursor → Option (List Char × Cursor)
  | 0, c => some ([], c)
  | budget + 1, c =>
    match c.peek? with
    | none => some ([], c)
    | some x =>
      if !isOne x then some ([], c)
      else do
        let (y, rest) ← if x = '%' then uriEscape? c else some (x, c.step 1)
        let (s, rest) ← uri? isOne budget rest
        pure (y :: s, rest)

/-- A handle: a word between exclamation marks. The second mark may be
missing. -/
def tagHandle? (c : Cursor) : Option (List Char × Cursor) :=
  if c.at? (· = '!') then
    let (word, rest) := (c.step 1).span isWord
    if rest.at? (· = '!') then some ('!' :: word ++ ['!'], rest.step 1)
    else some ('!' :: word, rest)
  else none

/-- Handle and suffix of a tag. In angle brackets a tag has no handle, and a
mark alone is a suffix. -/
def tagParts? (c : Cursor) : Option (Token × Cursor) := do
  let budget := c.text.length
  if c.second? = some '<' then
    let (s, rest) ← uri? isUriChar budget (c.step 2)
    if rest.at? (· = '>') then pure (.tag "" (String.ofList s), rest.step 1) else none
  else
    let (handle, rest) ← tagHandle? c
    let (s, rest) ← uri? isTagChar budget rest
    if 2 ≤ handle.length ∧ handle.getLast? = some '!' then
      if s.isEmpty then none else pure (.tag (String.ofList handle) (String.ofList s), rest)
    else
      let suffix := handle.drop 1 ++ s
      if suffix.isEmpty then pure (.tag "" "!", rest)
      else pure (.tag "!" (String.ofList suffix), rest)

/-- A tag; a gap follows it, or a mark if it stands in brackets. -/
def tag? (flow : Bool) (c : Cursor) : Option (Token × Cursor) := do
  let (t, rest) ← tagParts? c
  if isGap rest.peek? || (flow && rest.at? isFlow) then pure (t, rest) else none

/-! ## Directives -/

def maxVersionDigits : Nat := 9

def versionNumber? (c : Cursor) : Option Cursor :=
  let (digits, rest) := c.span Char.isDigit
  if digits.isEmpty ∨ maxVersionDigits < digits.length then none else some rest

def version? (c : Cursor) : Option (Token × Cursor) := do
  let rest ← versionNumber? c.blanks
  if rest.at? (· = '.') then
    let rest ← versionNumber? (rest.step 1)
    pure (.version, rest)
  else none

def handle? (c : Cursor) : Option (Token × Cursor) := do
  let (name, rest) ← tagHandle? c.blanks
  let rest := rest.blanks
  if name ≠ ['!'] ∧ name.getLast? ≠ some '!' then none
  else
    let (start, rest) ←
      if rest.at? (· = '!') then some (['!'], rest.step 1)
      else if rest.at? isTagChar then some ([], rest)
      else none
    let (s, rest) ← uri? isUriChar rest.text.length rest
    if isGap rest.peek? then
      pure (.handle (String.ofList name) (String.ofList (start ++ s)), rest)
    else none

/-- A directive and the end of its line. One that is not known stands for
nothing. -/
def directive? (c : Cursor) : Option (Token × Cursor) := do
  let (name, rest) := (c.step 1).span isWord
  if name.isEmpty ∨ !isGap rest.peek? then none
  else
    let (t, rest) ←
      if name = "YAML".toList then version? rest
      else if name = "TAG".toList then handle? rest
      else some (.handle "" "", rest.comment)
    let (_, rest) ← rest.lineRest?
    match rest.peek? with
    | none => pure (t, rest)
    | some x => if isBreak x then pure (t, rest.newline) else none

end Vigil.Yaml
