import Vigil.Config.Setting
import Vigil.Text.Utf8

/-!
# Vigil.Config.Ron — settings written in RON

RON is an object notation with structures `(name: value)`, tuples, optional
values, maps and lists. A structure and a map are tables, a tuple and a list
are lists, and an optional value is the value or nothing. A name may stand
before a structure or a tuple, and one alone is nothing. Every reader takes
text off the front and gives the rest; `none` is a mistake in the text.

* `Ron.read?` — the settings in a text, whose value has to be a table.
-/

namespace Vigil.Ron

/-! ## Blanks -/

def isSpace (c : Char) : Bool := c = ' ' || c = '\t' || c = '\n' || c = '\r'

def afterBlock? : (level : Nat) → List Char → Option (List Char)
  | 0, text => some text
  | _, [] => none
  | level + 1, '/' :: '*' :: rest => afterBlock? (level + 2) rest
  | level + 1, '*' :: '/' :: rest => afterBlock? level rest
  | level + 1, _ :: rest => afterBlock? (level + 1) rest

/-- White space and comments. No other text starts with a slash. -/
def skipWithin? : (budget : Nat) → List Char → Option (List Char)
  | 0, _ => none
  | budget + 1, text =>
    match text.dropWhile isSpace with
    | '/' :: '/' :: rest => skipWithin? budget (rest.dropWhile (· ≠ '\n'))
    | '/' :: '*' :: rest => do skipWithin? budget (← afterBlock? 1 rest)
    | '/' :: _ => none
    | rest => some rest

def skip? (text : List Char) : Option (List Char) := skipWithin? (text.length + 1) text

def mark? (word : String) (text : List Char) : Option (List Char) :=
  if word.toList.isPrefixOf text then some (text.drop word.length) else none

def comma? (text : List Char) : Option (Bool × List Char) := do
  match ← skip? text with
  | ',' :: rest => pure (true, ← skip? rest)
  | rest => pure (false, rest)

/-! ## Names -/

def isNameStart (c : Char) : Bool := c.isAlpha || c = '_'

def isNameChar (c : Char) : Bool := c.isAlphanum || c = '_'

def isRawChar (c : Char) : Bool := isNameChar c || c = '.' || c = '+' || c = '-'

/-- A name. One that holds other characters stands after `r#`; a raw string is
none. -/
def name? (text : List Char) : Option (String × List Char) :=
  match text with
  | ['r'] => none
  | 'r' :: '"' :: _ => none
  | 'r' :: '#' :: rest =>
    let run := rest.takeWhile isRawChar
    if run.isEmpty then none else some (String.ofList run, rest.drop run.length)
  | c :: _ =>
    if isNameStart c then
      let run := text.takeWhile isNameChar
      some (String.ofList run, text.drop run.length)
    else none
  | [] => none

/-- The text after a word that does not go on. -/
def word? (word : String) (text : List Char) : Option (List Char) := do
  let rest ← mark? word text
  match rest with
  | c :: _ => if isNameChar c then none else pure rest
  | [] => pure []

/-! ## Texts -/

def shortEscape? : Char → Option Char
  | '\x27' => some '\x27'
  | '"' => some '"'
  | '\\' => some '\\'
  | 'n' => some '\n'
  | 'r' => some '\r'
  | 't' => some '\t'
  | '0' => some '\x00'
  | _ => none

def escape? : List Char → Option (Char × List Char)
  | 'x' :: a :: b :: rest => do
    let n ← Hex.number? [a, b]
    pure (Char.ofNat n, rest)
  | 'u' :: '\x7b' :: rest => do
    let run := rest.takeWhile (· ≠ '\x7d')
    let n ← Hex.number? run
    if run.length ≤ 6 ∧ n.isValidChar then
      match rest.drop run.length with
      | '\x7d' :: rest => pure (Char.ofNat n, rest)
      | _ => none
    else none
  | c :: rest => (shortEscape? c).map (·, rest)
  | [] => none

def stringBody? : (budget : Nat) → List Char → Option (List Char × List Char)
  | 0, _ => none
  | _, [] => none
  | budget + 1, c :: rest =>
    if c = '"' then some ([], rest)
    else if c = '\\' then do
      let (x, rest) ← escape? rest
      let (s, rest) ← stringBody? budget rest
      pure (x :: s, rest)
    else (stringBody? budget rest).map fun (s, r) => (c :: s, r)

def rawBody? (closing : List Char) : List Char → Option (List Char × List Char)
  | [] => none
  | c :: rest =>
    if closing.isPrefixOf (c :: rest) then some ([], (c :: rest).drop closing.length)
    else (rawBody? closing rest).map fun (s, r) => (c :: s, r)

def text? (text : List Char) : Option (String × List Char) := do
  let (s, rest) ← match text with
    | '"' :: rest => stringBody? (rest.length + 1) rest
    | 'r' :: rest =>
      let hashes := rest.takeWhile (· = '#')
      match rest.drop hashes.length with
      | '"' :: rest => rawBody? ('"' :: hashes) rest
      | _ => none
    | '\x27' :: '\\' :: rest => do
      let (c, rest) ← escape? rest
      pure ([c], ← mark? "'" rest)
    | '\x27' :: c :: '\x27' :: rest => if c = '\x27' then none else some ([c], rest)
    | _ => none
  pure (String.ofList s, rest)

/-! ## Numbers -/

def isFloatChar (c : Char) : Bool :=
  c.isDigit || c = 'e' || c = 'E' || c = '.' || c = '+' || c = '-' || c = '_'

def isIntChar (c : Char) : Bool := (Hex.value? c).isSome || c = '_'

/-- A double: the longest run of characters that one can hold. No digits are
grouped. -/
def float? (text : List Char) : Option (Setting × List Char) := do
  let run := text.takeWhile isFloatChar
  if run.contains '_' then none
  else
    let d ← Double.ofText? (String.ofList run)
    pure (.float d, text.drop run.length)

/-- Base of an integer by its first characters, and its digits. -/
def base : List Char → Nat × List Char
  | '0' :: 'x' :: rest => (16, rest)
  | '0' :: 'b' :: rest => (2, rest)
  | '0' :: 'o' :: rest => (8, rest)
  | text => (10, text)

/-- An integer without its sign. Its digits may be grouped. -/
def natural? (text : List Char) : Option (Nat × List Char) := do
  let (b, digits) := base text
  let run := digits.takeWhile isIntChar
  if run.isEmpty ∨ run.head? = some '_' then none
  else
    let n ← (run.filter (· ≠ '_')).foldlM (fun n c => do
      let d ← Hex.value? c
      if d < b then some (b * n + d) else none) 0
    pure (n, digits.drop run.length)

/-- An integer: a signed word with a sign, an unsigned one without. An unsigned
word beyond the signed ones stands for the signed word of the same bits. -/
def int? (text : List Char) : Option (Setting × List Char) :=
  match text with
  | '-' :: rest => do
    let (n, rest) ← natural? rest
    if Word.IsSigned (-(n : Int)) then pure (.int (-(n : Int)), rest) else none
  | '+' :: rest => do
    let (n, rest) ← natural? rest
    if Word.IsSigned n then pure (.int n, rest) else none
  | text => do
    let (n, rest) ← natural? text
    if Word.IsSigned n then pure (.int n, rest)
    else if Word.IsUnsigned n then pure (.int ((n : Int) - Word.maxUnsigned - 1), rest)
    else none

/-- A number: an integer unless a double goes on longer, and a double if it is
no integer after all. -/
def number? (text : List Char) : Option (Setting × List Char) :=
  let digits := match text with
    | '+' :: rest => rest
    | '-' :: rest => rest
    | text => text
  if (digits.takeWhile isIntChar).length < (digits.takeWhile isFloatChar).length then float? text
  else int? text <|> float? text

def plain? (text : List Char) : Option (Setting × List Char) :=
  let words : List (String × Setting) :=
    [("true", .bool true), ("false", .bool false), ("None", .unset),
      ("inf", .float (Double.infinity false)), ("-inf", .float (Double.infinity true)),
      ("NaN", .float Double.nan)]
  (words.findSome? fun (w, v) => (word? w text).map (v, ·))
    <|> (mark? "()" text).map (Setting.unset, ·)

/-! ## Values -/

/-- Whether a structure goes on after its opening bracket, and no tuple. -/
def isStruct (text : List Char) : Bool :=
  match name? text with
  | some (_, rest) => ((skip? rest).bind (·.head?)) == some ':'
  | none => false

def maxDepth : Nat := 128

def deeper? (depth : Nat) : Option Nat := if depth = 0 then none else some (depth - 1)

mutual

/-- A value; `depth` is the number of levels that may still be opened. -/
def value? : (budget depth : Nat) → List Char → Option (Setting × List Char)
  | 0, _, _ => none
  | budget + 1, depth, text =>
    match plain? text, word? "Some" text, name? text with
    | some result, _, _ => some result
    | none, some rest, _ => do
      let '(' :: rest ← skip? rest | none
      let (v, rest) ← value? budget (← deeper? depth) (← skip? rest)
      let (_, rest) ← comma? rest
      pure (v, ← mark? ")" rest)
    | none, none, some (_, rest) => do
      match ← skip? rest with
      | '(' :: rest => bracket? budget (← deeper? depth) (← skip? rest)
      | rest => pure (.unset, rest)
    | none, none, none =>
      match text with
      | '(' :: rest => do bracket? budget (← deeper? depth) (← skip? rest)
      | '[' :: rest => do
        let (xs, rest) ← items? budget (← deeper? depth) "]" (← skip? rest)
        pure (.list xs, rest)
      | '\x7b' :: rest => do
        let (es, rest) ← entries? budget (← deeper? depth) "\x7d" text? [] (← skip? rest)
        pure (.table es, rest)
      | '.' :: _ => float? text
      | text => ((text? text).map fun (s, r) => (.str s, r)) <|> number? text

def bracket? : (budget depth : Nat) → List Char → Option (Setting × List Char)
  | 0, _, _ => none
  | budget + 1, depth, text =>
    if isStruct text then do
      let (es, rest) ← entries? budget depth ")" name? [] text
      pure (.table es, rest)
    else do
      let (xs, rest) ← items? budget depth ")" text
      pure (.list xs, rest)

def items? : (budget depth : Nat) → (closing : String) → List Char →
    Option (List Setting × List Char)
  | 0, _, _, _ => none
  | budget + 1, depth, closing, text =>
    match mark? closing text with
    | some rest => some ([], rest)
    | none => do
      let (v, rest) ← value? budget depth text
      let (more, rest) ← comma? rest
      if more then
        let (xs, rest) ← items? budget depth closing rest
        pure (v :: xs, rest)
      else pure ([v], ← mark? closing rest)

/-- Entries up to a closing bracket, after those given, with names that `key?`
reads. Of entries of one name the last counts. -/
def entries? : (budget depth : Nat) → (closing : String) →
    (key? : List Char → Option (String × List Char)) → List (String × Setting) → List Char →
    Option (List (String × Setting) × List Char)
  | 0, _, _, _, _, _ => none
  | budget + 1, depth, closing, key?, entries, text =>
    match mark? closing text with
    | some rest => some (entries, rest)
    | none => do
      let (key, rest) ← key? text
      let ':' :: rest ← skip? rest | none
      let (v, rest) ← value? budget depth (← skip? rest)
      let entries := Setting.insertEntry key v entries
      let (more, rest) ← comma? rest
      if more then entries? budget depth closing key? entries rest
      else pure (entries, ← mark? closing rest)

end

/-! ## Whole texts -/

/-- Features that a text may ask for; none of them changes a table. -/
def features : List String := ["unwrap_newtypes", "implicit_some", "unwrap_variant_newtypes"]

def features? : (budget : Nat) → List Char → Option (List Char)
  | 0, _ => none
  | budget + 1, text => do
    let (name, rest) ← name? text
    if !features.contains name then none
    else
      let (more, rest) ← comma? rest
      match rest with
      | c :: _ =>
        if isNameChar c then
          if more then features? budget rest else none
        else pure rest
      | [] => none

/-- What a text asks for before its value: `#![enable(…)]`, any number of
times. -/
def skipFeatures? : (budget : Nat) → List Char → Option (List Char)
  | 0, _ => none
  | budget + 1, text => do
    match ← skip? text with
    | '#' :: rest =>
      let rest ← ["!", "[", "enable", "("].foldlM (fun r w => do mark? w (← skip? r)) rest
      let rest ← features? (rest.length + 1) (← skip? rest)
      let rest ← skip? (← mark? ")" rest)
      skipFeatures? budget (← mark? "]" rest)
    | rest => pure rest

def read? (text : String) : Option Setting := do
  let text ← skipFeatures? (text.length + 1) text.toList
  let (v, rest) ← value? (2 * text.length + 2) maxDepth text
  match v, ← skip? rest with
  | .table entries, [] => pure (.table entries)
  | _, _ => none

end Vigil.Ron
