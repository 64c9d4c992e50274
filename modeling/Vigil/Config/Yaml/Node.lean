import Vigil.Config.Yaml.Layout
import Vigil.Number.Decimal
import Vigil.Number.Word

/-!
# Vigil.Config.Yaml.Node — trees of YAML nodes

The tokens of a text make up documents of nodes. A plain text may stand for a
number, a truth value or nothing; a tag says what it has to stand for. A node
may be named and stand again by its name. `none` is a mistake in the text.

* `Node.ofPlain`, `Node.ofTagged` — what a plain text stands for.
* `document?` — the root of the only document of a text.
-/

namespace Vigil.Yaml

inductive Node where
  | null
  | bool (b : Bool)
  | int (i : Int)
  | real (text : String)
  | str (text : String)
  /-- A text that is not what its tag says, or a node that stands in itself. -/
  | bad
  | list (items : List Node)
  | map (pairs : List (Node × Node))
deriving Inhabited

namespace Node

mutual

/-- Whether two nodes are alike. Numbers that are no integers are compared by
their texts, and mappings in their order. -/
def same : Node → Node → Bool
  | .null, .null => true
  | .bool a, .bool b => a = b
  | .int a, .int b => a = b
  | .real a, .real b => a = b
  | .str a, .str b => a = b
  | .bad, .bad => true
  | .list a, .list b => sameItems a b
  | .map a, .map b => samePairs a b
  | _, _ => false

def sameItems : List Node → List Node → Bool
  | [], [] => true
  | x :: xs, y :: ys => same x y && sameItems xs ys
  | _, _ => false

def samePairs : List (Node × Node) → List (Node × Node) → Bool
  | [], [] => true
  | (k, v) :: xs, (l, w) :: ys => same k l && same v w && samePairs xs ys
  | _, _ => false

end

/-! ## Plain texts -/

def inBase? (base : Nat) (text : List Char) : Option Int :=
  let digits? (text : List Char) : Option Nat :=
    if text.isEmpty then none
    else text.foldlM (fun n c => do
      let d ← Hex.value? c
      if d < base then some (base * n + d) else none) 0
  match text with
  | '-' :: rest => (digits? rest).map fun n => -(n : Int)
  | '+' :: rest => (digits? rest).map Int.ofNat
  | text => (digits? text).map Int.ofNat

/-- The integer that a plain text spells, if it is a signed word. -/
def integer? (text : List Char) : Option Int :=
  let i? := match text with
    | '0' :: 'x' :: rest => inBase? 16 rest
    | '0' :: 'o' :: rest => inBase? 8 rest
    | '+' :: rest => Digits.integer? true rest
    | text => Digits.integer? true text
  i?.filter fun i => Word.IsSigned i

/-- Words for infinities and for what is no number. -/
def realWords : List String :=
  [".inf", ".Inf", ".INF", "+.inf", "+.Inf", "+.INF", "-.inf", "-.Inf", "-.INF", ".nan", "NaN",
    ".NAN"]

def isReal (text : String) : Bool :=
  realWords.contains text || (text.toList.any Char.isDigit && (Double.ofText? text).isSome)

def ofPlain (text : String) : Node :=
  if let some i := integer? text.toList then .int i
  else if text = "~" ∨ text = "null" then .null
  else if text = "true" then .bool true
  else if text = "false" then .bool false
  else if isReal text then .real text
  else .str text

def commonTags : String := "tag:yaml.org,2002:"

def ofTagged (handle suffix text : String) : Node :=
  if handle ≠ commonTags then .str text
  else if suffix = "bool" then
    if text = "true" then .bool true else if text = "false" then .bool false else .bad
  else if suffix = "int" then
    match (Digits.integer? true text.toList).filter fun i => Word.IsSigned i with
    | some i => .int i
    | none => .bad
  else if suffix = "float" then if isReal text then .real text else .bad
  else if suffix = "null" then if text = "~" ∨ text = "null" then .null else .bad
  else .str text

/-! ## Mappings -/

/-- A mapping from its keys and values in turn. A bad key is passed over, so
that its value is taken for the key. No key stands twice. -/
def pairs? (pairs : List (Node × Node)) : (key : Node) → List Node → Option (List (Node × Node))
  | _, [] => some pairs.reverse
  | .bad, n :: rest => pairs? pairs n rest
  | key, n :: rest =>
    if pairs.any fun (k, _) => same k key then none else pairs? ((key, n) :: pairs) .bad rest

end Node

/-! ## Reading -/

/-- The tokens that are left, and what is known of tags and names. -/
structure Reading where
  tokens : List Token
  /-- What the handles of tags stand for. -/
  handles : List (String × String)
  names : List (String × Nat)
  nodes : List (Nat × Node)

abbrev Read := StateT Reading Option

namespace Read

def peek : Read (Option Token) := do return (← get).tokens.head?

def advance : Read Unit := modify fun r => { r with tokens := r.tokens.drop 1 }

def sees (tokens : List Token) : Read Bool := do
  match ← peek with
  | some t => return tokens.contains t
  | none => return false

def takes (t : Token) : Read Bool := do
  if ← sees [t] then
    advance
    return true
  else return false

/-! ## Properties -/

def declare (name : String) : Read Nat := do
  let n := (← get).names.length
  modify fun r => { r with names := (name, n) :: r.names }
  return n

/-- What a tag's handle stands for. A handle between marks has to be known,
except for the one of the common types. -/
def tagOf (handle suffix : String) : Read (String × String) := do
  match (← get).handles.lookup handle with
  | some start => return (start, suffix)
  | none =>
    if handle = "!!" then return (Node.commonTags, suffix)
    else if 2 ≤ handle.length ∧ handle.toList.getLast? = some '!' then failure
    else return (handle, suffix)

def name? : Read (Option Nat) := do
  match ← peek with
  | some (.anchor name) =>
    advance
    return some (← declare name)
  | _ => return none

def tag? : Read (Option (String × String)) := do
  match ← peek with
  | some (.tag handle suffix) =>
    advance
    return some (← tagOf handle suffix)
  | _ => return none

def properties : Read (Option Nat × Option (String × String)) := do
  match ← name? with
  | some n => return (some n, ← tag?)
  | none =>
    let t ← tag?
    if t.isSome then return (← name?, t) else return (none, none)

/-- A node that was named before; one that is not complete is bad. -/
def named (name : String) : Read Node := do
  match (← get).names.lookup name with
  | some n => return ((← get).nodes.lookup n).getD .bad
  | none => failure

def keep (name : Option Nat) (node : Node) : Read Node := do
  if let some n := name then modify fun r => { r with nodes := (n, node) :: r.nodes }
  return node

/-! ## Nodes -/

/-- The mark before an entry in brackets, which the first one does not have. -/
def between (first : Bool) : Read Unit := do
  if first then return
  else if ← takes .comma then return
  else failure

def mapOf (nodes : List Node) : Read Node := do
  match Node.pairs? [] .bad nodes with
  | some pairs => return .map pairs
  | none => failure

mutual

/-- A node. Only in a block it may be a block, and only below a key a sequence
whose entries are not further right. -/
def node : (budget : Nat) → (block below : Bool) → Read Node
  | 0, _, _ => failure
  | budget + 1, block, below => do
    if let some (.again name) ← peek then
      advance
      named name
    else
      let (name, tag) ← properties
      match ← peek with
      | some (.scalar plain text) =>
        advance
        keep name (match plain, tag with
          | false, _ => .str text
          | true, some (handle, suffix) => Node.ofTagged handle suffix text
          | true, none => Node.ofPlain text)
      | some .flowSequence =>
        advance
        keep name (.list (← flowItems budget true))
      | some .flowMapping =>
        advance
        keep name (← mapOf (← flowPairs budget true))
      | t =>
        if t = some .entry ∧ below then keep name (.list (← looseItems budget))
        else if t = some .blockSequence ∧ block then
          advance
          keep name (.list (← blockItems budget))
        else if t = some .blockMapping ∧ block then
          advance
          keep name (← mapOf (← blockPairs budget))
        else if name.isNone ∧ tag.isNone then failure
        else
          keep name (match tag with
            | some (handle, suffix) => Node.ofTagged handle suffix ""
            | none => Node.ofPlain "")

/-- A node that may be missing: it is if one of these tokens comes. -/
def optional : (budget : Nat) → (absent : List Token) → (block below : Bool) → Read Node
  | 0, _, _, _ => failure
  | budget + 1, absent, block, below => do
    if ← sees absent then return .null else node budget block below

def blockItems : (budget : Nat) → Read (List Node)
  | 0 => failure
  | budget + 1 => do
    if ← takes .blockEnd then return []
    else if ← takes .entry then
      let n ← optional budget [.entry, .blockEnd] true false
      return n :: (← blockItems budget)
    else failure

/-- Entries of a sequence that are not further right than the key above. -/
def looseItems : (budget : Nat) → Read (List Node)
  | 0 => failure
  | budget + 1 => do
    if ← takes .entry then
      let n ← optional budget [.entry, .key, .value, .blockEnd] true false
      return n :: (← looseItems budget)
    else return []

def blockPairs : (budget : Nat) → Read (List Node)
  | 0 => failure
  | budget + 1 => do
    if ← takes .blockEnd then return []
    else
      let k ←
        if ← takes .key then optional budget [.key, .value, .blockEnd] true true
        else if ← sees [.value] then pure .null
        else failure
      let v ←
        if ← takes .value then optional budget [.key, .value, .blockEnd] true true
        else pure .null
      return k :: v :: (← blockPairs budget)

def flowPairs : (budget : Nat) → (first : Bool) → Read (List Node)
  | 0, _ => failure
  | budget + 1, first => do
    if ← takes .flowMappingEnd then return []
    else
      between first
      if ← takes .flowMappingEnd then return []
      else if ← takes .key then
        let k ← optional budget [.value, .comma, .flowMappingEnd] false false
        let v ← flowValue budget
        return k :: v :: (← flowPairs budget false)
      else if ← sees [.value] then
        let v ← flowValue budget
        return .null :: v :: (← flowPairs budget false)
      else
        let k ← node budget false false
        return k :: .null :: (← flowPairs budget false)

/-- The value of a key in brackets; without its mark it is missing. -/
def flowValue : (budget : Nat) → Read Node
  | 0 => failure
  | budget + 1 => do
    if ← takes .value then optional budget [.comma, .flowMappingEnd] false false
    else return .null

def flowItems : (budget : Nat) → (first : Bool) → Read (List Node)
  | 0, _ => failure
  | budget + 1, first => do
    if ← takes .flowSequenceEnd then return []
    else
      between first
      if ← takes .flowSequenceEnd then return []
      else
        let n ← if ← takes .key then pair budget else node budget false false
        return n :: (← flowItems budget false)

/-- A pair in a sequence in brackets, after the mark of its key. -/
def pair : (budget : Nat) → Read Node
  | 0 => failure
  | budget + 1 => do
    let k ←
      if ← sees [.value, .comma, .flowSequenceEnd] then
        advance
        pure .null
      else node budget false false
    let v ←
      if ← takes .value then optional budget [.comma, .flowSequenceEnd] false false
      else pure .null
    mapOf [k, v]

end

/-! ## Documents -/

/-- Directives before a document. The version is given once, and of the handles
only the last directive counts. -/
def directives : (budget : Nat) → (versioned : Bool) → Read Unit
  | 0, _ => failure
  | budget + 1, versioned => do
    match ← peek with
    | some .version =>
      if versioned then failure
      modify fun r => { r with handles := [] }
      advance
      directives budget true
    | some (.handle name start) =>
      modify fun r => { r with handles := [(name, start)] }
      advance
      directives budget versioned
    | _ => return

def isExplicit : Option Token → Bool
  | some .documentStart => true
  | some .version => true
  | some (.handle _ _) => true
  | _ => false

def skipEnds : Read Unit :=
  modify fun r => { r with tokens := r.tokens.dropWhile (· = .documentEnd) }

/-- The root of the only document, if there is one. A document that holds
nothing is null. -/
def document : Read (Option Node) := do
  skipEnds
  let first ← peek
  if first.isNone then return none
  else
    let budget := 3 * (← get).tokens.length + 3
    let root ←
      if isExplicit first then
        directives budget false
        if !(← takes .documentStart) then failure
        let next ← peek
        if next.isNone || isExplicit next || next = some .documentEnd then pure .null
        else node budget true false
      else node budget true false
    skipEnds
    if (← peek).isSome then failure
    return some root

end Read

/-- The root of the only document of a text, if there is one. -/
def document? (text : String) : Option (Option Node) := do
  let tokens ← tokens? text
  let (root, _) ← Read.document.run ⟨tokens, [], [], []⟩
  pure root

end Vigil.Yaml
