import Vigil.Config.Yaml.Scalar
import Vigil.Config.Yaml.Token

/-!
# Vigil.Config.Yaml.Layout — tokens by position

Blocks begin and end where the indentation changes, and a text turns out to be
a key only when its colon comes: then the marks of the key, and of the mapping
it may begin, are put before it. `none` is a mistake in the text.

* `Layout` — the tokens so far, and what the next ones depend on.
* `tokens?` — the tokens of a text.
-/

namespace Vigil.Yaml

structure Candidate where
  possible : Bool
  /-- Nothing else can stand there. -/
  required : Bool
  position : Nat
  line : Nat
  column : Nat
  index : Nat

namespace Candidate

def absent : Candidate := ⟨false, false, 0, 0, 0, 0⟩

def maxLength : Nat := 1024

def isStale (k : Candidate) (c : Cursor) : Bool :=
  k.possible && (k.line < c.line || k.index + maxLength < c.index)

end Candidate

/-- An indentation that a block has replaced. -/
structure Indent where
  column : Int
  /-- The block is a collection, which has an end. -/
  block : Bool

structure Layout where
  cursor : Cursor
  tokens : List Token
  property : Nat
  /-- A key may begin here. -/
  keyAllowed : Bool
  /-- Places where keys may have begun: one outside of brackets, and one in
  each pair of them, the innermost first. -/
  keys : List Candidate
  /-- Column of the innermost block; `-1` outside of all. -/
  indent : Int
  indents : List Indent
  flow : Nat
  /-- Where a colon needs no blank after it. -/
  adjacent : Nat
  /-- A mapping in brackets has begun. -/
  mapping : Bool
  /-- For each open sequence in brackets, whether a pair without brackets is
  open in it. -/
  pairs : List Bool

namespace Layout

def start (text : List Char) : Layout :=
  ⟨Cursor.start text, [], 0, true, [Candidate.absent], -1, [], 0, 0, false, []⟩

def inFlow (s : Layout) : Bool := s.flow ≠ 0

def place (s : Layout) : Place := ⟨s.inFlow, s.indent⟩

def push (s : Layout) (t : Token) : Layout := { s with tokens := t :: s.tokens }

def insert (s : Layout) (position : Nat) (t : Token) : Layout :=
  { s with tokens := s.tokens.insertIdx (s.tokens.length - position) t }

def allowKey (s : Layout) (allowed : Bool) : Layout := { s with keyAllowed := allowed }

/-! ## Candidates for keys -/

def saveKey (s : Layout) : Layout :=
  if s.keyAllowed then
    let c := s.cursor
    let required := !s.inFlow && s.indent = c.column && (s.indents.head?.any (·.block))
    { s with
      keys := ⟨true, required, s.tokens.length, c.line, c.column, c.index⟩ :: s.keys.drop 1 }
  else s

/-- No key begins at the innermost candidate. -/
def dropKey? (s : Layout) : Option Layout :=
  match s.keys with
  | k :: rest =>
    if k.possible && k.required then none
    else some { s with keys := { k with possible := false } :: rest }
  | [] => some s

def dropStale? (s : Layout) : Option Layout :=
  if s.inFlow then some s
  else if s.keys.any fun k => k.isStale s.cursor && k.required then none
  else
    let keys := s.keys.map fun k =>
      if k.isStale s.cursor then { k with possible := false } else k
    some { s with keys }

/-! ## Indentation -/

/-- Indentations that end before a column, and the tokens that end blocks. -/
def unrollWithin (column : Int) : List Indent → Int → List Token → List Indent × Int × List Token
  | [], indent, tokens => ([], indent, tokens)
  | i :: rest, indent, tokens =>
    if column < indent then
      unrollWithin column rest i.column (if i.block then .blockEnd :: tokens else tokens)
    else (i :: rest, indent, tokens)

/-- End the blocks that are further right than a column. -/
def unroll (s : Layout) (column : Int) : Layout :=
  if s.inFlow then s
  else
    let (indents, indent, tokens) := unrollWithin column s.indents s.indent s.tokens
    { s with indents, indent, tokens }

/-- Begin a block at a column, if it is further right. Its token stands at the
end, or at a position before. -/
def roll (s : Layout) (column : Int) (position? : Option Nat) (t : Token) : Layout :=
  if s.inFlow then s
  else
    let s := match s.indents with
      | i :: rest =>
        if s.indent ≤ column ∧ !i.block then { s with indent := i.column, indents := rest } else s
      | [] => s
    if s.indent < column then
      let s := { s with indents := ⟨s.indent, true⟩ :: s.indents, indent := column }
      match position? with
      | some position => s.insert position t
      | none => s.push t
    else s

/-- What follows is further right than the block around it. -/
def rollOne (s : Layout) : Layout :=
  if !s.inFlow && s.indents.head?.any (·.block) then
    { s with indents := ⟨s.indent, false⟩ :: s.indents, indent := s.indent + 1 }
  else s

/-- Indentations without those that begin no block. -/
def withoutLoose : List Indent → Int → List Indent × Int
  | [], indent => ([], indent)
  | i :: rest, indent => if i.block then (i :: rest, indent) else withoutLoose rest i.column

def unrollOne (s : Layout) : Layout :=
  let (indents, indent) := withoutLoose s.indents s.indent
  { s with indents, indent }

/-! ## Blanks -/

/-- Blanks, breaks and comments before the next token. After a break a key may
begin. Tabs do not indent what stands in a block. -/
def skipWithin? : (budget : Nat) → Layout → Option Layout
  | 0, s => some s
  | budget + 1, s =>
    let c := s.cursor
    match c.peek? with
    | some '\t' =>
      if !s.indents.isEmpty && c.leading && c.column < s.indent then do
        let (_, rest) ← c.lineRest?
        if isLineEnd rest.peek? then skipWithin? budget { s with cursor := rest } else none
      else skipWithin? budget { s with cursor := c.blank }
    | some ' ' => skipWithin? budget { s with cursor := c.blank }
    | some '#' => skipWithin? budget { s with cursor := c.comment }
    | some x =>
      if isBreak x then
        skipWithin? budget { s with cursor := c.newline, keyAllowed := s.keyAllowed || !s.inFlow }
      else some s
    | none => some s

def skip? (s : Layout) : Option Layout := skipWithin? (s.cursor.text.length + 1) s

def lineRest? (s : Layout) : Option Layout :=
  s.cursor.lineRest?.map fun (_, c) => { s with cursor := c }

def step (s : Layout) (n : Nat) : Layout := { s with cursor := s.cursor.step n }

/-! ## Documents -/

/-- What stands at the left edge of a text ends all blocks. -/
def leave? (s : Layout) : Option Layout := do
  let s ← (s.unroll (-1)).dropKey?
  pure (s.allowKey false)

def directive? (s : Layout) : Option Layout := do
  let s ← s.leave?
  let (t, c) ← Yaml.directive? s.cursor
  pure { s.push t with cursor := c }

def documentStart? (s : Layout) : Option Layout := do
  let s ← s.leave?
  pure ((s.step 3).push .documentStart)

/-- The end of a document; nothing but a comment follows it on its line. -/
def documentEnd? (s : Layout) : Option Layout := do
  let s ← s.leave?
  let s ← ((s.step 3).push .documentEnd).lineRest?
  if isLineEnd s.cursor.peek? then pure s else none

def finish? (s : Layout) : Option (List Token) :=
  if s.keys.any fun k => k.required && k.possible then none
  else some (s.unroll (-1)).tokens.reverse

/-! ## Collections in brackets -/

def maxFlow : Nat := 255

def flowStart? (s : Layout) (t : Token) : Option Layout :=
  let s := s.saveKey.rollOne
  if maxFlow ≤ s.flow then none
  else do
    let s := { s with flow := s.flow + 1, keys := Candidate.absent :: s.keys }
    let s := if t = .flowMapping then { s with mapping := true }
      else { s with pairs := false :: s.pairs }
    let s ← ((s.allowKey true).step 1).lineRest?
    pure (s.push t)

/-- End the pair without brackets that is open in a sequence. -/
def endPair (s : Layout) : Layout :=
  match s.pairs with
  | true :: rest => { s with mapping := false, pairs := false :: rest }.push .flowMappingEnd
  | _ => s

def flowEnd? (s : Layout) (t : Token) : Option Layout := do
  let s ← s.dropKey?
  let s := if s.inFlow then { s with flow := s.flow - 1, keys := s.keys.drop 1 } else s
  let s := s.allowKey false
  let s := if t = .flowSequenceEnd then
      let s := s.endPair
      { s with pairs := s.pairs.drop 1 }
    else s
  let s ← (s.step 1).lineRest?
  let s := if s.inFlow then { s with adjacent := s.cursor.index } else s
  pure (s.push t)

def comma? (s : Layout) : Option Layout := do
  let s ← s.dropKey?
  let s ← ((s.allowKey true).endPair.step 1).lineRest?
  pure (s.push .comma)

/-! ## Entries, keys and values -/

/-- Whether a name or a tag was the last token, at the left edge. -/
def afterEdgeProperty (s : Layout) : Bool :=
  match s.tokens with
  | .anchor _ :: _ => s.property = 0
  | .tag _ _ :: _ => s.property = 0
  | _ => false

/-- An entry of a block. A tab does not set off an entry in an entry. -/
def entry? (s : Layout) : Option Layout :=
  let column := s.cursor.column
  if s.inFlow || !s.keyAllowed then none
  else if s.afterEdgeProperty && column = 0 && -1 < s.indent then none
  else do
    let s := (s.step 1).roll column none .blockSequence
    let (passed, c) ← s.cursor.lineRest?
    if passed.contains '\t' && c.at? (· = '-') && isGap c.second? then none
    else
      let s := { s with cursor := c }
      let s := if c.at? fun x => isBreak x || isFlow x then s.rollOne else s
      let s ← s.dropKey?
      pure ((s.allowKey true).push .entry)

/-- Blanks other than tabs, breaks and comments after the mark of a key, and
whether there were any. -/
def keyGap : (budget : Nat) → (passed : Bool) → Layout → Bool × Layout
  | 0, passed, s => (passed, s)
  | budget + 1, passed, s =>
    let c := s.cursor
    match c.peek? with
    | some ' ' => keyGap budget true { s with cursor := c.blank }
    | some '#' => keyGap budget passed { s with cursor := c.comment }
    | some x =>
      if isBreak x then
        keyGap budget true { s with cursor := c.newline, keyAllowed := s.keyAllowed || !s.inFlow }
      else (passed, s)
    | none => (passed, s)

def key? (s : Layout) : Option Layout :=
  let marked? :=
    if s.inFlow then some { s with mapping := true }
    else if !s.keyAllowed then none
    else some (s.roll s.cursor.column none .blockMapping)
  do
    let s ← (← marked?).dropKey?
    let s := (s.allowKey !s.inFlow).step 1
    let (passed, s) := keyGap (s.cursor.text.length + 1) false s
    if !passed || s.cursor.at? (· = '\t') then none else pure (s.push .key)

/-- Whether what stands after a colon and blanks that are all tabs needs a
space before it. -/
def needsSpace (passed : List Char) (c : Cursor) : Bool :=
  !passed.contains ' ' && c.at? fun x => x = '-' || isWord x

/-- The mark of a value. It makes a key of what the innermost candidate began,
or follows a key that is marked. -/
def value? (s : Layout) : Option Layout := do
  let k := s.keys.head?.getD Candidate.absent
  let first := s.cursor
  let single := !s.pairs.isEmpty && !s.mapping
  let s := if single then { s with pairs := true :: s.pairs.drop 1 } else s
  let s := s.step 1
  let s ← if s.cursor.at? (· = '\t') then do
      let (passed, c) ← s.cursor.lineRest?
      if needsSpace passed c then none else some { s with cursor := c }
    else some s
  if k.possible then
    let s := s.insert k.position .key
    if single && k.line < first.line then none
    else
      let s := if single then s.insert k.position .flowMapping else s
      let s := (s.roll k.column (some k.position) .blockMapping).rollOne
      let s := { s with keys := { k with possible := false } :: s.keys.drop 1 }
      pure ((s.allowKey false).push .value)
  else
    let s := if single then s.push .flowMapping else s
    if !s.inFlow && !s.keyAllowed then none
    else
      let s := if s.inFlow then s else s.roll first.column none .blockMapping
      pure ((s.rollOne.allowKey !s.inFlow).push .value)

/-- The mark of a value right before another mark. Only a key in quotes or
brackets may have it before an opening bracket. -/
def flowValue? (s : Layout) : Option Layout :=
  let opens := s.cursor.second?.any fun x => x = '[' || x = '\x7b'
  if s.cursor.index ≠ s.adjacent && opens then none else s.value?

/-! ## Names, tags and texts -/

def again? (s : Layout) : Option Layout := do
  let s := s.saveKey.allowKey false
  let (name, c) ← Yaml.anchor? s.cursor
  pure { s.push (.again name) with cursor := c }

def anchor? (s : Layout) : Option Layout := do
  let s := s.saveKey.allowKey false
  let (name, c) ← Yaml.anchor? s.cursor
  pure { s.push (.anchor name) with cursor := c, property := s.cursor.column }

def tag? (s : Layout) : Option Layout := do
  let s := s.saveKey.allowKey false
  let (t, c) ← Yaml.tag? s.inFlow s.cursor
  pure { s.push t with cursor := c, property := s.cursor.column }

def block? (s : Layout) : Option Layout := do
  let s := (s.saveKey.allowKey true).unrollOne
  let (text, c) ← Yaml.block? s.indent s.cursor
  pure { s.push (.scalar false text) with cursor := c }

/-- A text in quotes; a colon may follow it at once. -/
def quoted? (s : Layout) (quote : Char) : Option Layout := do
  let s := s.saveKey.allowKey false
  let (text, c) ← Yaml.quoted? s.place quote s.cursor
  let s ← { s with cursor := c }.skip?
  pure { s.push (.scalar false text) with adjacent := s.cursor.index }

/-- A plain text; after one that ends with a break a key may begin. -/
def plain? (s : Layout) : Option Layout := do
  let s := (s.saveKey.allowKey false).unrollOne
  let (text, c) ← Yaml.plain? s.place s.cursor
  pure { s.push (.scalar true text) with cursor := c, keyAllowed := c.leading }

/-! ## All tokens -/

def token? (s : Layout) (x : Char) : Option Layout :=
  let next := s.cursor.second?
  match x with
  | '[' => s.flowStart? .flowSequence
  | '\x7b' => s.flowStart? .flowMapping
  | ']' => s.flowEnd? .flowSequenceEnd
  | '\x7d' => s.flowEnd? .flowMappingEnd
  | ',' => s.comma?
  | '*' => s.again?
  | '&' => s.anchor?
  | '!' => s.tag?
  | '\x27' => s.quoted? '\x27'
  | '"' => s.quoted? '"'
  | '-' => if isGap next then s.entry? else s.plain?
  | '?' => if isGap next then s.key? else s.plain?
  | ':' =>
    if isGap next then s.value?
    else if s.inFlow && (next.any isFlow || s.cursor.index = s.adjacent) then s.flowValue?
    else s.plain?
  | x =>
    if (x = '|' || x = '>') && !s.inFlow then s.block?
    else if x = '%' || x = '@' || x = '\x60' then none
    else s.plain?

def run? : (budget : Nat) → Layout → Option (List Token)
  | 0, _ => none
  | budget + 1, s => do
    let s ← (← s.skip?).dropStale?
    let s := s.unroll s.cursor.column
    match s.cursor.peek? with
    | none => s.finish?
    | some x =>
      let c := s.cursor
      let next ←
        if c.column = 0 ∧ x = '%' then s.directive?
        else if c.isMark '-' then s.documentStart?
        else if c.isMark '.' then s.documentEnd?
        else if c.column < s.indent then none
        else s.token? x
      run? budget next

end Layout

/-- The tokens of a text, which ends at a NUL. -/
def tokens? (text : String) : Option (List Token) :=
  let text := text.toList.takeWhile (· ≠ '\x00')
  (Layout.start text).run? (text.length + 2)

end Vigil.Yaml
