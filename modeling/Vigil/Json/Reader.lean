import Vigil.Json.Skim

/-!
# Vigil.Json.Reader — JSON trees from text

`Json.read?` accepts exactly one JSON document with blanks around it. Arrays
and objects may nest up to a given depth. A number past the finite doubles is
refused, as are control characters inside strings and escaped surrogates that
do not form a pair.

A reader that knows which members it needs says so by a `Shape`. Members that
the shape does not name are left out of the tree, and of their values only the
grammar is checked.

The reader takes a budget of characters that is spent one per step; the
length of the text is always enough.
-/

namespace Vigil.Json

/-! ## Shapes -/

/-- The part of a document that is read. -/
inductive Shape where
  /-- Everything. -/
  | whole
  | items (item : Shape)
  /-- The named members of an object, each in its shape. -/
  | members (named : List (String × Shape))

namespace Shape

def item : Shape → Shape
  | .items s => s
  | _ => .whole

/-- Shape of the member of that name, `none` if it is passed over. -/
def member? (name : String) : Shape → Option Shape
  | .members named => named.lookup name
  | _ => some .whole

end Shape

/-! ## Documents -/

mutual

/-- One value, with its leading blanks, at most `depth` levels deep. -/
def readValue? : (budget depth : Nat) → Shape → List Char → Option (Json × List Char)
  | 0, _, _, _ => none
  | budget + 1, depth, shape, text =>
    match skipBlanks text with
    | 'n' :: 'u' :: 'l' :: 'l' :: rest => some (.null, rest)
    | 't' :: 'r' :: 'u' :: 'e' :: rest => some (.bool true, rest)
    | 'f' :: 'a' :: 'l' :: 's' :: 'e' :: rest => some (.bool false, rest)
    | '"' :: rest => (stringBody? rest).map fun (s, r) => (.str (String.ofList s), r)
    | '[' :: rest =>
      match depth with
      | 0 => none
      | depth + 1 =>
        match skipBlanks rest with
        | ']' :: rest => some (.arr [], rest)
        | rest => (readItems? budget depth shape.item rest).map fun (js, r) => (.arr js, r)
    | '\x7b' :: rest =>
      match depth with
      | 0 => none
      | depth + 1 =>
        match skipBlanks rest with
        | '\x7d' :: rest => some (.obj [], rest)
        | rest => (readMembers? budget depth shape rest).map fun (ms, r) => (.obj ms, r)
    | rest => readNumber? rest

def readItems? : (budget depth : Nat) → Shape → List Char → Option (List Json × List Char)
  | 0, _, _, _ => none
  | budget + 1, depth, shape, text => do
    let (j, rest) ← readValue? budget depth shape text
    match skipBlanks rest with
    | ',' :: rest =>
      let (js, rest) ← readItems? budget depth shape rest
      pure (j :: js, rest)
    | ']' :: rest => pure ([j], rest)
    | _ => none

def readMembers? : (budget depth : Nat) → Shape → List Char →
    Option (List (String × Json) × List Char)
  | 0, _, _, _ => none
  | budget + 1, depth, shape, text => do
    let (name, rest) ←
      match skipBlanks text with
      | '"' :: rest => stringBody? rest
      | _ => none
    let name := String.ofList name
    let rest ←
      match skipBlanks rest with
      | ':' :: rest => some rest
      | _ => none
    let (read, rest) ←
      match shape.member? name with
      | some inner => do
        let (j, rest) ← readValue? budget depth inner rest
        pure ([(name, j)], rest)
      | none => (skim? budget [] rest).map fun rest => ([], rest)
    match skipBlanks rest with
    | ',' :: rest =>
      let (ms, rest) ← readMembers? budget depth shape rest
      pure (read ++ ms, rest)
    | '\x7d' :: rest => pure (read, rest)
    | _ => none

end

/-- Read the part of a document that a shape names, at most `depth` levels
deep. -/
def readShape? (shape : Shape) (depth : Nat) (text : String) : Option Json := do
  let chars := text.toList
  let (j, rest) ← readValue? (chars.length + 1) depth shape chars
  if (skipBlanks rest).isEmpty then pure j else none

def readWithin? (depth : Nat) (text : String) : Option Json := readShape? .whole depth text

/-- Deepest nesting of arrays and objects a document may have. -/
def maxDepth : Nat := 127

def read? (text : String) : Option Json := readWithin? maxDepth text

end Vigil.Json
