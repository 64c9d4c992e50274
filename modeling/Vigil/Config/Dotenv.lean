import Vigil.Text.Alphanumeric

/-!
# Vigil.Config.Dotenv — variables from a file

A file of lines `NAME=value` adds variables to the environment. A variable
that is set already keeps its value. Values may be quoted, in part or as a
whole, and may span lines within quotes; `$NAME` and the same in braces stand
for variables. White space at the end of a line does not count. Reading ends
at the first line that is not well formed, and what came before it counts.
-/

namespace Vigil

abbrev Vars := List (String × String)

namespace Dotenv

/-! ## Logical lines -/

inductive LineState where
  | plain
  | blank
  | escape
  | weak
  | weakEscape
  | strong
  | strongEscape
deriving DecidableEq

def LineState.step (s : LineState) (c : Char) : Option LineState :=
  let opened : LineState :=
    if c = '\\' then .escape
    else if c = '"' then .weak
    else if c = '\x27' then .strong
    else .plain
  match s with
  | .blank => if c = '#' then none else some opened
  | .plain => some (if Text.isBlank c ∧ c ≠ '\n' ∧ c ≠ '\r' then .blank else opened)
  | .escape => some .plain
  | .weak => some (if c = '\\' then .weakEscape else if c = '"' then .plain else .weak)
  | .weakEscape => some .weak
  | .strong => some (if c = '\\' then .strongEscape else if c = '\x27' then .plain else .strong)
  | .strongEscape => some .strong

/-- A physical line taken off, its break included, and whether the logical
line ends with it: the text before a comment, the state, and the rest. -/
def takeLine : LineState → List Char → List Char × Option LineState × List Char
  | s, [] => ([], some s, [])
  | s, c :: rest =>
    match s.step c with
    | none => ([], none, (rest.dropWhile (· ≠ '\n')).drop 1)
    | some s =>
      if c = '\n' then ([c], some s, rest)
      else
        let (line, s, rest) := takeLine s rest
        (c :: line, s, rest)

def dropBreak (line : List Char) : List Char :=
  match line.reverse with
  | '\n' :: '\r' :: rest => rest.reverse
  | '\n' :: rest => rest.reverse
  | _ => line

/-- The logical line that starts here: physical lines are joined while a
quote is open or the line ends in a blank. `none` at the end of the text, an
unfinished line is a mistake. -/
def logicalLine : (budget : Nat) → LineState → List Char → List Char →
    Option (Option (List Char) × List Char)
  | 0, _, _, _ => none
  | _, s, [], [] => if s = .plain then none else some (none, [])
  | _, s, _ :: _, [] => if s = .plain then none else some (none, [])
  | budget + 1, s, sofar, text =>
    let (line, s', rest) := takeLine s text
    let all := sofar ++ line
    if (Text.trimStart all).head? = some '#' then some (some [], (text.dropWhile (· ≠ '\n')).drop 1)
    else
      match s' with
      | none => some (some all, rest)
      | some .plain => some (some (dropBreak all), rest)
      | some s' => logicalLine budget s' all rest

/-! ## Values -/

inductive Reference where
  | none
  | open
  | braced
deriving DecidableEq

structure ValueState where
  /-- Text so far, the last character first. -/
  rev : List Char
  strong : Bool
  weak : Bool
  escaped : Bool
  /-- Only blanks or a comment may follow. -/
  ended : Bool
  reference : Reference
  /-- Name of the variable, the last character first. -/
  name : List Char

/-- Value of a variable in the environment, which is a list of texts
`NAME=value`: what follows the first of them that starts with the name and an
equals sign. -/
def find? (vars : Vars) (name : String) : Option String :=
  let start := name.toList ++ ['=']
  if name.isEmpty then none
  else vars.findSome? fun (n, v) =>
    let entry := n.toList ++ '=' :: v.toList
    if start.isPrefixOf entry then some (String.ofList (entry.drop start.length)) else none

def ValueState.resolve (vars stored : Vars) (s : ValueState) : ValueState :=
  let name := String.ofList s.name.reverse
  let text := ((find? vars name) <|> (stored.lookup name)).getD ""
  { s with rev := text.toList.reverse ++ s.rev, name := [], reference := .none }

def ValueState.plain (s : ValueState) (c : Char) : ValueState :=
  if c = '$' then { s with reference := .open }
  else if s.weak then
    if c = '"' then { s with weak := false }
    else if c = '\\' then { s with escaped := true }
    else { s with rev := c :: s.rev }
  else if c = '\x27' then { s with strong := true }
  else if c = '"' then { s with weak := true }
  else if c = '\\' then { s with escaped := true }
  else if c = ' ' ∨ c = '\t' then { s with ended := true }
  else { s with rev := c :: s.rev }

def escape? : Char → Option Char
  | 'n' => some '\n'
  | c => if c = '\\' ∨ c = '\x27' ∨ c = '"' ∨ c = '$' ∨ c = ' ' then some c else none

/-- The value at the end of its text; quotes and braces have to be closed. -/
def ValueState.finish (vars stored : Vars) (s : ValueState) : Option String :=
  if s.reference = .braced ∨ s.strong ∨ s.weak then none
  else some (String.ofList (s.resolve vars stored).rev.reverse)

def value? (vars stored : Vars) : List Char → ValueState → Option String
  | [], s => s.finish vars stored
  | c :: rest, s =>
    if s.ended then
      if c = ' ' ∨ c = '\t' then value? vars stored rest s
      else if c = '#' then s.finish vars stored
      else none
    else if s.escaped then do
      let x ← escape? c
      value? vars stored rest { s with rev := x :: s.rev, escaped := false }
    else if s.strong then
      if c = '\x27' then value? vars stored rest { s with strong := false }
      else value? vars stored rest { s with rev := c :: s.rev }
    else
      match s.reference with
      | .none => value? vars stored rest (s.plain c)
      | .open =>
        if Text.isAlphanumeric c then value? vars stored rest { s with name := c :: s.name }
        else if c = '\x7b' ∧ s.name = [] then value? vars stored rest { s with reference := .braced }
        else
          let s := s.resolve vars stored
          if c = '$' then value? vars stored rest { s with reference := .open }
          else value? vars stored rest { s with rev := c :: s.rev }
      | .braced =>
        if c = '\x7d' then value? vars stored rest (s.resolve vars stored)
        else value? vars stored rest { s with name := c :: s.name }

/-! ## Lines -/

def name? (text : List Char) : Option (String × List Char) :=
  match text with
  | c :: _ =>
    if c.isAlpha ∨ c = '_' then
      let isNameChar (c : Char) : Bool := c.isAlphanum || c = '_' || c = '.'
      some (String.ofList (text.takeWhile isNameChar), text.dropWhile isNameChar)
    else none
  | [] => none

def equals? : List Char → Option (List Char)
  | '=' :: rest => some rest
  | _ => none

/-- A line: nothing, a variable, or a mistake. -/
def line? (vars stored : Vars) (text : List Char) : Option (Option (String × String)) :=
  let text := Text.trimStart (Text.trimEnd text)
  match text with
  | [] => some none
  | '#' :: _ => some none
  | text => do
    let (name, rest) ← name? text
    let rest := Text.trimStart rest
    let (name, rest) ←
      match equals? rest with
      | some rest => some (name, rest)
      | none =>
        if name = "export" then do
          let (name, rest) ← name? rest
          let rest ← equals? (Text.trimStart rest)
          pure (name, rest)
        else none
    let rest := Text.trimStart rest
    if rest.isEmpty ∨ rest.head? = some '#' then pure (some (name, ""))
    else
      let v ← value? vars stored rest ⟨[], false, false, false, false, .none, []⟩
      pure (some (name, v))

/-- The variables with one more, unless it is set already. No variable can
hold a NUL. -/
def setVar? (vars : Vars) (name value : String) : Option Vars :=
  if (vars.lookup name).isSome then some vars
  else if value.toList.contains '\x00' then none
  else some (vars ++ [(name, value)])

/-- The lines from here on. `stored` are the values the file gave so far. -/
def lines? : (budget : Nat) → Vars → (stored : Vars) → List Char → Option Vars
  | 0, vars, _, _ => some vars
  | budget + 1, vars, stored, text =>
    match logicalLine (text.length + 1) .plain [] text with
    | none | some (none, _) => some vars
    | some (some line, rest) =>
      match line? vars stored line with
      | none => some vars
      | some none => lines? budget vars stored rest
      | some (some (name, v)) => do
        lines? budget (← setVar? vars name v) ((name, v) :: stored) rest

/-- The variables with those of a file added; `none` if one of them cannot be
set. -/
def load? (vars : Vars) (text : String) : Option Vars :=
  let chars := match text.toList with
    | '\ufeff' :: rest => rest
    | cs => cs
  lines? (chars.length + 1) vars [] chars

end Dotenv

end Vigil
