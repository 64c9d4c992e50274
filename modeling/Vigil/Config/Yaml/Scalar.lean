import Vigil.Config.Yaml.Cursor
import Vigil.Text.Utf8

/-!
# Vigil.Config.Yaml.Scalar — texts in a YAML text

A text is plain, in quotes, or a block of lines. Plain and quoted texts go on
over line breaks: one break is a space, and of several all but the first count.
A block keeps its breaks or joins its lines in the same way, and its header
says what becomes of the breaks at its end.

* `Fold` — a text under way, with the breaks that may still count.
* `plain?`, `quoted?`, `block?` — the three kinds of texts.
-/

namespace Vigil.Yaml

structure Place where
  flow : Bool
  /-- Column of the block around it; `-1` outside of all. -/
  indent : Int

/-! ## Text under way -/

/-- A text under way, in reverse, and the blanks and line breaks after it. -/
structure Fold where
  chars : List Char
  blanks : List Char
  broken : Bool
  breaks : Nat

namespace Fold

def empty : Fold := ⟨[], [], false, 0⟩

def push (f : Fold) (chars : List Char) : Fold := { f with chars := chars.reverse ++ f.chars }

def text (f : Fold) : String := String.ofList f.chars.reverse

/-- Settle the blanks or breaks after the text, as a character follows. -/
def settle (f : Fold) (afterBreak : Bool) : Fold :=
  let between :=
    if !afterBreak then f.blanks
    else if f.broken && f.breaks = 0 then [' ']
    else List.replicate f.breaks '\n'
  ⟨between ++ f.chars, [], false, 0⟩

end Fold

/-! ## Plain texts -/

/-- Whether a character goes on with a plain text: `: ` does not, and no mark
inside brackets. -/
def isPlain (flow : Bool) (c : Char) (next : Option Char) : Bool :=
  if c = ':' then !(isGap next || (flow && next.any isFlow))
  else !(flow && isFlow c)

def plainRun (flow : Bool) : List Char → List Char
  | [] => []
  | c :: rest =>
    if !isGap (some c) && isPlain flow c rest.head? then c :: plainRun flow rest else []

/-- Blanks and breaks inside a plain text. A tab is no indentation, unless the
line is empty. -/
def plainGap? (column : Int) : (budget : Nat) → Fold → Cursor → Option (Fold × Cursor)
  | 0, f, c => some (f, c)
  | budget + 1, f, c =>
    match c.peek? with
    | none => some (f, c)
    | some x =>
      if isBreak x then
        if c.leading then plainGap? column budget { f with breaks := f.breaks + 1 } c.newline
        else plainGap? column budget { f with blanks := [], broken := true } c.newline
      else if !isBlank x then some (f, c)
      else if !c.leading then
        plainGap? column budget { f with blanks := x :: f.blanks } c.blank
      else if x = '\t' ∧ c.column < column then do
        let (_, rest) ← c.lineRest?
        if isLineEnd rest.peek? then plainGap? column budget f rest else none
      else plainGap? column budget f c.blank

/-- A plain text from here on, after what was read of it. -/
def plainWithin? (place : Place) : (budget : Nat) → Fold → Cursor → Option (Fold × Cursor)
  | 0, _, _ => none
  | budget + 1, f, c =>
    if c.isDocumentMark || c.at? (· = '#') then some (f, c)
    else if place.flow && c.at? (· = '-') && c.second?.any isFlow then none
    else
      let run := plainRun place.flow c.text
      let f := if run.isEmpty then f else (f.settle c.leading).push run
      let c := c.step run.length
      if !c.at? (fun x => isBlank x || isBreak x) then some (f, c)
      else do
        let (f, c) ← plainGap? (place.indent + 1) (c.text.length + 1) f c
        if !place.flow ∧ c.column < place.indent + 1 then pure (f, c)
        else plainWithin? place budget f c

/-- A plain text. It is not empty, and in brackets it is indented. -/
def plain? (place : Place) (c : Cursor) : Option (String × Cursor) := do
  if place.flow ∧ c.column < place.indent + 1 then none
  else
    let (f, c) ← plainWithin? place (c.text.length + 1) Fold.empty c
    if f.chars.isEmpty then none else pure (f.text, c)

/-! ## Texts in quotes -/

def shortEscape? : Char → Option Char
  | '0' => some '\x00'
  | 'a' => some '\x07'
  | 'b' => some '\x08'
  | 't' => some '\t'
  | '\t' => some '\t'
  | 'n' => some '\n'
  | 'v' => some '\x0b'
  | 'f' => some '\x0c'
  | 'r' => some '\r'
  | 'e' => some '\x1b'
  | ' ' => some ' '
  | '"' => some '"'
  | '/' => some '/'
  | '\\' => some '\\'
  | 'N' => some '\u0085'
  | '_' => some '\u00a0'
  | 'L' => some '\u2028'
  | 'P' => some '\u2029'
  | _ => none

def escapeDigits? : Char → Option Nat
  | 'x' => some 2
  | 'u' => some 4
  | 'U' => some 8
  | _ => none

def escape? : List Char → Option (Char × Nat)
  | '\\' :: kind :: rest =>
    match escapeDigits? kind with
    | some width => do
      let digits := rest.take width
      let n ← Hex.number? digits
      if digits.length = width ∧ n.isValidChar then pure (Char.ofNat n, width + 2) else none
    | none => (shortEscape? kind).map (·, 2)
  | _ => none

inductive RunEnd where
  /-- At a blank, a break, the end of the text or the closing quote. -/
  | plain
  /-- At a line break that an escape has joined. -/
  | joined

/-- Characters in quotes that are no blanks. In single quotes two of them stand
for one. -/
def quotedRun? (quote : Char) : (budget : Nat) → Fold → Cursor → Option (RunEnd × Fold × Cursor)
  | 0, _, _ => none
  | budget + 1, f, c =>
    match c.peek? with
    | none => some (.plain, f, c)
    | some x =>
      if isBlank x ∨ isBreak x then some (.plain, f, c)
      else if x = quote then
        if quote = '\x27' ∧ c.second? = some quote then
          quotedRun? quote budget (f.push [quote]) (c.step 2)
        else some (.plain, f, c)
      else if x = '\\' ∧ quote = '"' then
        if c.second?.any isBreak then some (.joined, f, (c.step 1).newline)
        else do
          let (y, width) ← escape? c.text
          quotedRun? quote budget (f.push [y]) (c.step width)
      else quotedRun? quote budget (f.push [x]) (c.step 1)

/-- Blanks and breaks in quotes, and whether there was a break. -/
def quotedGap? (indent : Int) : (budget : Nat) → (afterBreak : Bool) → Fold → Cursor →
    Option (Bool × Fold × Cursor)
  | 0, afterBreak, f, c => some (afterBreak, f, c)
  | budget + 1, afterBreak, f, c =>
    match c.peek? with
    | none => some (afterBreak, f, c)
    | some x =>
      if isBreak x then
        if afterBreak then
          quotedGap? indent budget true { f with breaks := f.breaks + 1 } c.newline
        else quotedGap? indent budget true { f with blanks := [], broken := true } c.newline
      else if !isBlank x then some (afterBreak, f, c)
      else if !afterBreak then
        quotedGap? indent budget false { f with blanks := x :: f.blanks } c.blank
      else if x = '\t' ∧ c.column < indent then none
      else quotedGap? indent budget true f c.blank

/-- The rest of a text in quotes, up to the closing one. -/
def quotedWithin? (place : Place) (quote : Char) : (budget : Nat) → Fold → Cursor →
    Option (Fold × Cursor)
  | 0, _, _ => none
  | budget + 1, f, c =>
    if c.isDocumentMark || c.text.isEmpty || c.column < place.indent then none
    else do
      let (ending, f, c) ← quotedRun? quote (c.text.length + 1) f c
      if c.at? (· = quote) then pure (f, c.step 1)
      else
        let joined := match ending with
          | .joined => true
          | .plain => false
        let (afterBreak, f, c) ← quotedGap? place.indent (c.text.length + 1) joined f c
        quotedWithin? place quote budget (f.settle afterBreak) c

/-- What may follow a text in quotes on its line: nothing, or the marks of a
collection. The key of a block ends on the line where it begins. -/
def mayFollowQuoted (place : Place) (first : Cursor) (c : Cursor) : Bool :=
  match c.peek? with
  | none => true
  | some ':' => place.flow || first.line = c.line
  | some x => isBreak x || (place.flow && [',', ']', '\x7d'].contains x)

def quoted? (place : Place) (quote : Char) (c : Cursor) : Option (String × Cursor) := do
  let (f, rest) ← quotedWithin? place quote (c.text.length + 1) Fold.empty (c.step 1)
  let (_, rest) ← rest.lineRest?
  if mayFollowQuoted place c rest then pure (f.text, rest) else none

/-! ## Blocks of lines -/

inductive Chomp where
  | strip
  /-- One stays. -/
  | clip
  | keep
deriving DecidableEq, Repr

def chomp? : Option Char → Option Chomp
  | some '+' => some .keep
  | some '-' => some .strip
  | _ => none

def width? (x : Option Char) : Option Nat := x.bind fun c =>
  if c.isDigit then some (c.toNat - 48) else none

/-- The header of a block: what becomes of breaks, and its indentation if it is
given; the two come in any order. -/
def header (c : Cursor) : Chomp × Option Nat × Cursor :=
  match chomp? c.peek?, width? c.peek? with
  | some chomp, _ =>
    let c := c.step 1
    match width? c.peek? with
    | some n => (chomp, some n, c.step 1)
    | none => (chomp, none, c)
  | none, some n =>
    let c := c.step 1
    match chomp? c.peek? with
    | some chomp => (chomp, some n, c.step 1)
    | none => (.clip, some n, c)
  | none, none => (.clip, none, c)

/-- Empty lines and the indentation of the next line, at most `indent`; also
the number of empty lines. -/
def emptyLines (indent : Nat) : (budget : Nat) → (breaks : Nat) → Cursor → Nat × Cursor
  | 0, breaks, c => (breaks, c)
  | budget + 1, breaks, c =>
    let c := c.spaces indent
    if c.at? isBreak then emptyLines indent budget (breaks + 1) c.newline else (breaks, c)

/-- Empty lines and the indentation of the first line of a block, and the
widest indentation of them all. -/
def firstIndent : (budget : Nat) → (widest breaks : Nat) → Cursor → Nat × Nat × Cursor
  | 0, widest, breaks, c => (widest, breaks, c)
  | budget + 1, widest, breaks, c =>
    let c := c.spaces (c.column + c.text.length)
    let widest := max widest c.column
    if c.at? isBreak then firstIndent budget widest (breaks + 1) c.newline
    else (widest, breaks, c)

/-- A block under way, in reverse. -/
structure Block where
  chars : List Char
  broken : Bool
  breaks : Nat
  /-- The last line starts with a blank. -/
  spaced : Bool

/-- Lines of a block, each at the column `indent`. Lines are joined unless one
of the two starts with a blank. -/
def blockLines (literal : Bool) (indent : Nat) : (budget : Nat) → Block → Cursor → Block × Cursor
  | 0, b, c => (b, c)
  | budget + 1, b, c =>
    if c.column ≠ indent ∨ c.text.isEmpty ∨ (indent = 0 ∧ c.isMark '.') then (b, c)
    else
      let spaced := c.at? isBlank
      let between :=
        if !literal && b.broken && !b.spaced && !spaced then
          if b.breaks = 0 then [' '] else List.replicate b.breaks '\n'
        else List.replicate ((if b.broken then 1 else 0) + b.breaks) '\n'
      let (run, rest) := c.span fun x => !isBreak x
      let chars := run.reverse ++ between ++ b.chars
      if rest.text.isEmpty then (⟨chars, false, 0, spaced⟩, rest)
      else
        let (breaks, rest) := emptyLines indent (rest.text.length + 1) 0 rest.newline
        blockLines literal indent budget ⟨chars, true, breaks, spaced⟩ rest

/-- The text of a block without lines: the break after its header, or the
empty lines. -/
def emptyBlock (chomp : Chomp) (sameLine : Bool) (broken : Bool) (breaks : Nat) : List Char :=
  let first := if broken then ['\n'] else []
  match chomp with
  | .strip => []
  | .clip => if sameLine then [] else first
  | .keep => if sameLine then [] else if breaks = 0 then first else List.replicate breaks '\n'

/-- Line breaks at the end of a block. The last line of a text may have
none. -/
def tail (chomp : Chomp) (indent : Nat) (b : Block) (c : Cursor) : List Char :=
  let kept := if b.broken then ['\n'] else []
  let final := if c.text.isEmpty ∧ max indent 1 ≤ c.column then ['\n'] else []
  match chomp with
  | .strip => []
  | .clip => kept ++ final
  | .keep => kept ++ final ++ List.replicate b.breaks '\n'

/-- A block of lines. Without an indentation in its header it is indented as
its first line is, and more than what is around it. -/
def block? (indent : Int) (c : Cursor) : Option (String × Cursor) := do
  let literal := c.at? (· = '|')
  let (chomp, width?, rest) := header (c.step 1)
  let (_, rest) ← rest.lineRest?
  if width? = some 0 ∨ !isLineEnd rest.peek? then none
  else
    let broken := !rest.text.isEmpty
    let rest := if broken then rest.newline else rest
    if rest.at? (· = '\t') then none
    else
      let budget := rest.text.length + 1
      let (column, breaks, rest) := match width? with
        | some n =>
          let column := (max indent 0).toNat + n
          (column, emptyLines column budget 0 rest)
        | none =>
          let (widest, breaks, rest) := firstIndent budget 0 0 rest
          (max widest (indent + 1).toNat, breaks, rest)
      if rest.text.isEmpty then
        pure (String.ofList (emptyBlock chomp (c.line = rest.line) broken breaks), rest)
      else if rest.column < column ∧ indent < rest.column then none
      else
        let (b, rest) := blockLines literal column budget ⟨[], false, breaks, false⟩ rest
        pure (String.ofList (b.chars.reverse ++ tail chomp column b rest), rest)

end Vigil.Yaml
