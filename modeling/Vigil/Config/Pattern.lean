import Vigil.Text.Alphanumeric
import Vigil.Text.Utf8

/-!
# Vigil.Config.Pattern — which patterns are well formed

A filter may ask that a field match a pattern: a regular expression over
characters. Patterns have alternatives, groups, classes in brackets, repeated
parts, escapes and flags. Counted repetitions do not occur, since a brace ends
the field. There are no tables of letters beyond ASCII, so classes such as
`\d`, word boundaries and matching without regard to case are available only
where a flag turns the text into ASCII.

`Pattern.isValid` goes through the pattern once. It keeps the flags in force,
the groups that are open, the names of groups, and how deep the parts so far
are nested. A pattern may be nested `maxDepth` deep.

* `Pattern.Parts` — how deep a row of parts is nested.
* `Pattern.class?` — a class in brackets.
* `Pattern.isValid` — whether a text is a pattern.
-/

namespace Vigil.Pattern

/-! ## Flags -/

structure Flags where
  /-- Letters match without regard to case. -/
  fold : Bool
  /-- Characters are those of all scripts, not bytes of ASCII. -/
  wide : Bool
  /-- Blanks and comments are passed over. -/
  loose : Bool
deriving DecidableEq, Repr

def Flags.default : Flags := ⟨false, true, false⟩

def Flags.set? (f : Flags) (on : Bool) : Char → Option Flags
  | 'i' => some { f with fold := on }
  | 'u' => some { f with wide := on }
  | 'x' => some { f with loose := on }
  | c => if c = 'm' ∨ c = 's' ∨ c = 'U' ∨ c = 'R' then some f else none

/-- Flags up to a colon or a closing parenthesis, and that character. Each is
named once, and so is the dash that turns the rest off. `named` are the marks
so far, the last one first. -/
def flags? : Flags → (named : List Char) → List Char → Option (Flags × Bool × List Char)
  | _, _, [] => none
  | f, named, c :: rest =>
    if c = ':' ∨ c = ')' then
      if named.head? = some '-' ∨ (c = ')' ∧ named.isEmpty) then none
      else some (f, c = ':', rest)
    else if named.contains c then none
    else if c = '-' then flags? f (c :: named) rest
    else do flags? (← f.set? (!named.contains '-') c) (c :: named) rest

def skip (f : Flags) : (budget : Nat) → List Char → List Char
  | 0, text => text
  | budget + 1, text =>
    if f.loose then
      match text.dropWhile Text.isBlank with
      | '#' :: rest => skip f budget ((rest.dropWhile (· ≠ '\n')).drop 1)
      | rest => rest
    else text

/-- The character ahead. Blanks are passed over, and the mark of a comment is,
but not what the comment says. -/
def ahead? (f : Flags) (text : List Char) : Option Char :=
  if f.loose then
    match text.dropWhile Text.isBlank with
    | '#' :: rest => (rest.dropWhile Text.isBlank).head?
    | rest => rest.head?
  else text.head?

/-! ## Nesting -/

def maxDepth : Nat := 250

structure Parts where
  count : Nat
  deepest : Nat

def Parts.empty : Parts := ⟨0, 0⟩

def Parts.add (p : Parts) (depth : Nat) : Parts := ⟨p.count + 1, max p.deepest depth⟩

/-- How deep the row is nested: two parts or more make a level of their own. -/
def Parts.depth (p : Parts) : Nat := if p.count ≤ 1 then p.deepest else p.deepest + 1

/-! ## Escapes -/

inductive Escape where
  | literal (code : Nat)
  | byte (code : Nat)
  /-- A class, or all that is not in it. -/
  | kind (negated : Bool)
  /-- A place between characters; `word` if it depends on words. -/
  | edge (word : Bool)

/-- Characters with a meaning of their own. -/
def isMeta (c : Char) : Bool := "\\.+*?()|[]\x7b\x7d^$#&-~".toList.contains c

def letterEscape? : Char → Option Escape
  | 'a' => some (.literal 0x07)
  | 'f' => some (.literal 0x0c)
  | 't' => some (.literal 0x09)
  | 'n' => some (.literal 0x0a)
  | 'r' => some (.literal 0x0d)
  | 'v' => some (.literal 0x0b)
  | 'd' | 's' | 'w' => some (.kind false)
  | 'D' | 'S' | 'W' => some (.kind true)
  | 'A' | 'z' => some (.edge false)
  | 'b' | 'B' | '<' | '>' => some (.edge true)
  | _ => none

def take? (f : Flags) : (digits : Nat) → List Char → Option (List Char × List Char)
  | 0, text => some ([], text)
  | digits + 1, text =>
    match skip f (text.length + 1) text with
    | c :: rest => (take? f digits rest).map fun (cs, rest) => (c :: cs, rest)
    | [] => none

def hexCode? (f : Flags) (digits : Nat) (text : List Char) : Option (Nat × List Char) := do
  let (cs, rest) ← take? f digits text
  let code ← Hex.number? cs
  if code.isValidChar then some (code, rest) else none

def escape? (f : Flags) : List Char → Option (Escape × List Char)
  | 'x' :: rest => (hexCode? f 2 rest).map fun (code, rest) => (.byte code, rest)
  | 'u' :: rest => (hexCode? f 4 rest).map fun (code, rest) => (.literal code, rest)
  | 'U' :: rest => (hexCode? f 8 rest).map fun (code, rest) => (.literal code, rest)
  | c :: rest =>
    match letterEscape? c with
    | some e => some (e, rest)
    | none =>
      if isMeta c ∨ (c.toNat < 0x80 ∧ !c.isAlphanum) then some (.literal c.toNat, rest) else none
  | [] => none

/-- Whether a byte may be matched, and a character in a class: case is known
only in ASCII, and in ASCII there are no others. -/
def allows (f : Flags) (code : Nat) : Bool := if f.wide then !f.fold else code < 0x80

/-- Whether a character may be matched. Beyond ASCII it stands for the bytes
that spell it, where the text is one of bytes. -/
def allowsChar (f : Flags) : Bool := !(f.wide && f.fold)

/-! ## Classes -/

def classNames : List String :=
  ["alnum", "alpha", "ascii", "blank", "cntrl", "digit", "graph", "lower", "print", "punct",
    "space", "upper", "word", "xdigit"]

/-- A named class off the front of a text, after its bracket; and whether it
is negated. -/
def namedClass? : List Char → Option (Bool × List Char)
  | ':' :: rest =>
    let (negated, rest) := match rest with
      | '^' :: rest => (true, rest)
      | rest => (false, rest)
    let name := rest.takeWhile (· ≠ ':')
    match rest.dropWhile (· ≠ ':') with
    | ':' :: ']' :: rest =>
      if classNames.contains (String.ofList name) then some (negated, rest) else none
    | _ => none
  | _ => none

/-- One item of a class: its code if it is one character. -/
def classItem? (f : Flags) : List Char → Option (Option Nat × List Char)
  | '\\' :: rest => do
    match ← escape? f rest with
    | (.literal code, rest) | (.byte code, rest) =>
      if allows f code then some (some code, rest) else none
    | (.kind negated, rest) => if f.wide ∨ negated then none else some (none, rest)
    | (.edge _, _) => none
  | c :: rest => if allows f c.toNat then some (some c.toNat, rest) else none
  | [] => none

structure Brackets where
  /-- Depth of what stands before the last operator. -/
  left : Option Nat
  items : Parts

/-- How deep a class is nested, its brackets left out: an operator is a level
of its own. -/
def Brackets.depth (b : Brackets) : Nat :=
  match b.left with
  | some left => max left b.items.depth + 1
  | none => b.items.depth

def Brackets.add (b : Brackets) (depth : Nat) : Brackets := { b with items := b.items.add depth }

def Brackets.operate (b : Brackets) : Brackets := ⟨some b.depth, .empty⟩

/-- Dashes at the start of a class are items. -/
def dashes (f : Flags) : (budget : Nat) → Parts → List Char → Parts × List Char
  | 0, items, text => (items, text)
  | budget + 1, items, text =>
    match skip f budget text with
    | '-' :: rest => dashes f budget (items.add 0) rest
    | rest => (items, rest)

/-- What stands between an opening bracket and the first item: a negation,
dashes, and a bracket that is an item. -/
def classStart? (f : Flags) (text : List Char) : Option (Brackets × List Char) :=
  let skip := skip f (text.length + 1)
  let text := skip text
  let (negated, text) := match text with
    | '^' :: rest => (true, skip rest)
    | rest => (false, rest)
  let (items, text) := match dashes f (text.length + 1) .empty text with
    | (⟨0, _⟩, ']' :: rest) => (Parts.empty.add 0, rest)
    | start => start
  if (negated ∧ !f.wide) ∨ (items.count ≠ 0 ∧ !allowsChar f) then none
  else some (⟨none, items⟩, text)

/-- The depth of the classes that are open, and the text after the last.
`outer` are those around the innermost. -/
def class? (f : Flags) :
    (budget : Nat) → (outer : List Brackets) → Brackets → List Char → Option (Nat × List Char)
  | 0, _, _, _ => none
  | budget + 1, outer, inner, text => do
    match skip f budget text with
    | [] => none
    | '[' :: rest =>
      match namedClass? rest with
      | some (negated, rest) =>
        if (negated ∧ !f.wide) ∨ !allowsChar f then none
        else class? f budget outer (inner.add 0) rest
      | none =>
        let (innermost, rest) ← classStart? f rest
        class? f budget (inner :: outer) innermost rest
    | ']' :: rest =>
      match outer with
      | [] => pure (inner.depth + 1, rest)
      | around :: outer => class? f budget outer (around.add (inner.depth + 1)) rest
    | '&' :: '&' :: rest => class? f budget outer inner.operate rest
    | '-' :: '-' :: rest => class? f budget outer inner.operate rest
    | '~' :: '~' :: rest => class? f budget outer inner.operate rest
    | text =>
      let (low, rest) ← classItem? f text
      match skip f budget rest with
      | '-' :: rest' =>
        if ahead? f rest' = some ']' ∨ ahead? f rest' = some '-' then
          class? f budget outer (inner.add 0) rest
        else
          let (high, rest) ← classItem? f (skip f budget rest')
          if (← low) ≤ (← high) then class? f budget outer (inner.add 0) rest else none
      | rest => class? f budget outer (inner.add 0) rest

/-! ## Patterns -/

structure Group where
  flags : Flags
  ended : Parts
  parts : Parts
  /-- Depth of the last part, if it can be repeated. -/
  last : Option Nat

def Group.start (f : Flags) : Group := ⟨f, .empty, .empty, none⟩

def Group.row (g : Group) : Parts :=
  match g.last with
  | some depth => g.parts.add depth
  | none => g.parts

def Group.add (g : Group) (depth : Nat) : Group := { g with parts := g.row, last := some depth }

/-- Other flags, which are a part that cannot be repeated. -/
def Group.set (g : Group) (f : Flags) : Group :=
  { g with flags := f, parts := g.row.add 0, last := none }

def Group.next (g : Group) : Group :=
  { g with ended := g.ended.add g.row.depth, parts := .empty, last := none }

/-- How deep a group is nested, its parentheses left out. -/
def Group.depth (g : Group) : Nat := (g.ended.add g.row.depth).depth

structure State where
  inner : Group
  outer : List Group
  names : List (List Char)

def State.start : State := ⟨.start .default, [], []⟩

def State.add (s : State) (depth : Nat) : State := { s with inner := s.inner.add depth }

def State.begin (s : State) (f : Flags) : State :=
  { s with inner := .start f, outer := s.inner :: s.outer }

def State.close? (s : State) : Option State :=
  match s.outer with
  | [] => none
  | around :: outer => some { s with inner := around.add (s.inner.depth + 1), outer := outer }

def State.repeated? (s : State) : Option State :=
  s.inner.last.map fun depth => { s with inner := { s.inner with last := some (depth + 1) } }

def groupName? (names : List (List Char)) (text : List Char) : Option (List Char × List Char) :=
  let name := text.takeWhile (· ≠ '>')
  match name, text.dropWhile (· ≠ '>') with
  | first :: more, _ :: rest =>
    let continues (c : Char) : Bool := c = '_' || c = '.' || c = '[' || c = ']' || Text.isAlphanumeric c
    if (first = '_' ∨ Text.isAlphabetic first) ∧ more.all continues ∧ !names.contains name then
      some (name, rest)
    else none
  | _, _ => none

def group? (s : State) (text : List Char) : Option (State × List Char) :=
  let f := s.inner.flags
  let named (rest : List Char) : Option (State × List Char) :=
    (groupName? s.names rest).map fun (name, rest) =>
      ({ s.begin f with names := name :: s.names }, rest)
  match skip f (text.length + 1) text with
  | '?' :: '=' :: _ | '?' :: '!' :: _ | '?' :: '<' :: '=' :: _ | '?' :: '<' :: '!' :: _ => none
  | '?' :: 'P' :: '<' :: rest => named rest
  | '?' :: '<' :: rest => named rest
  | '?' :: rest => do
    let (f, opens, rest) ← flags? f [] rest
    pure (if opens then s.begin f else { s with inner := s.inner.set f }, rest)
  | rest => some (s.begin f, rest)

/-- A part that is neither a group nor repeated. -/
def part? (f : Flags) : List Char → Option (Nat × List Char)
  | '[' :: rest => do
    let (brackets, rest) ← classStart? f rest
    class? f (rest.length + 1) [] brackets rest
  | '.' :: rest => if f.wide then some (0, rest) else none
  | '\\' :: rest => do
    let (e, rest) ← escape? f rest
    let fits := match e with
      | .literal _ => allowsChar f
      | .byte code => allows f code
      | .kind negated => !f.wide && !negated
      | .edge word => !(word && f.wide)
    if fits then some (0, rest) else none
  | c :: rest =>
    if c = '^' ∨ c = '$' then some (0, rest)
    else if c = '\x7b' ∨ !allowsChar f then none
    else some (0, rest)
  | [] => none

def check : (budget : Nat) → State → List Char → Bool
  | 0, _, _ => false
  | budget + 1, s, text =>
    match skip s.inner.flags budget text with
    | [] => s.outer.isEmpty && s.inner.depth ≤ maxDepth
    | '(' :: rest =>
      match group? s rest with
      | some (s, rest) => check budget s rest
      | none => false
    | ')' :: rest =>
      match s.close? with
      | some s => check budget s rest
      | none => false
    | '|' :: rest => check budget { s with inner := s.inner.next } rest
    | c :: rest =>
      if c = '?' ∨ c = '*' ∨ c = '+' then
        let rest := if rest.head? = some '?' then rest.drop 1 else rest
        match s.repeated? with
        | some s => check budget s rest
        | none => false
      else
        match part? s.inner.flags (c :: rest) with
        | some (depth, rest) => check budget (s.add depth) rest
        | none => false

def isValid (text : List Char) : Bool := check (text.length + 1) .start text

end Vigil.Pattern
