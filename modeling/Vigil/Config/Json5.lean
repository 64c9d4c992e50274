import Vigil.Config.Setting
import Vigil.Text.Identifier
import Vigil.Text.Utf8

/-!
# Vigil.Config.Json5 — settings written in JSON5

JSON5 is JSON for writing by hand: comments, commas after the last item, names
without quotes, strings in either quote and over several lines, and numbers in
hexadecimal, with a bare point or with a plus sign. Every reader takes text off
the front and gives the rest; `none` is a mistake in the text.

* `Json5.read?` — the settings in a text, whose value has to be an object.
-/

namespace Vigil.Json5

/-! ## Blanks -/

def isBreak (c : Char) : Bool := c = '\n' || c = '\r' || c = '\u2028' || c = '\u2029'

/-- White space, the byte order mark included and the next-line mark not. -/
def isSpace (c : Char) : Bool := (Text.isBlank c && c ≠ '\u0085') || c = '\ufeff'

def afterBlock? : List Char → Option (List Char)
  | [] => none
  | '*' :: '/' :: rest => some rest
  | _ :: rest => afterBlock? rest

/-- White space and comments; a block comment without an end stays. -/
def skipWithin : (budget : Nat) → List Char → List Char
  | 0, text => text
  | budget + 1, text =>
    match text.dropWhile isSpace with
    | '/' :: '*' :: rest =>
      match afterBlock? rest with
      | some rest => skipWithin budget rest
      | none => '/' :: '*' :: rest
    | '/' :: '/' :: rest => skipWithin budget (rest.dropWhile fun c => !isBreak c)
    | rest => rest

def skip (text : List Char) : List Char := skipWithin (text.length + 1) text

/-! ## Strings -/

/-- The character of a code unit in four hexadecimal digits, after the `u`. One
half of a pair has to be followed by the escape of the other. -/
def unit? : List Char → Option (Char × List Char)
  | a :: b :: c :: d :: rest => do
    let high ← Hex.number? [a, b, c, d]
    if high < 0xD800 ∨ 0xDFFF < high then pure (Char.ofNat high, rest)
    else if 0xDBFF < high then none
    else
      match rest with
      | '\\' :: 'u' :: e :: f :: g :: h :: rest =>
        let low ← Hex.number? [e, f, g, h]
        if low < 0xDC00 ∨ 0xDFFF < low then none
        else pure (Char.ofNat (0x10000 + (high - 0xD800) * 0x400 + (low - 0xDC00)), rest)
      | _ => none
  | _ => none

/-- The character that a letter after a backslash stands for: most stand for
themselves. -/
def escaped : Char → Char
  | 'b' => '\x08'
  | 'f' => '\x0c'
  | 'n' => '\n'
  | 'r' => '\r'
  | 't' => '\t'
  | 'v' => '\x0b'
  | '0' => '\x00'
  | c => c

/-- What an escape stands for, after its backslash. A line break stands for
nothing. -/
def escape? : List Char → Option (List Char × List Char)
  | '\r' :: '\n' :: rest => some ([], rest)
  | 'x' :: a :: b :: rest => do
    let n ← Hex.number? [a, b]
    pure ([Char.ofNat n], rest)
  | 'u' :: rest => (unit? rest).map fun (c, r) => ([c], r)
  | c :: rest =>
    if isBreak c then some ([], rest)
    else if c = 'x' ∨ (c.isDigit ∧ c ≠ '0') then none
    else some ([escaped c], rest)
  | [] => none

def stringBody? (quote : Char) : (budget : Nat) → List Char → Option (List Char × List Char)
  | 0, _ => none
  | _, [] => none
  | budget + 1, c :: rest =>
    if c = quote then some ([], rest)
    else if c = '\\' then do
      let (piece, rest) ← escape? rest
      let (s, rest) ← stringBody? quote budget rest
      pure (piece ++ s, rest)
    else if isBreak c then none
    else (stringBody? quote budget rest).map fun (s, r) => (c :: s, r)

def string? : List Char → Option (String × List Char)
  | [] => none
  | quote :: rest =>
    if quote = '"' ∨ quote = '\x27' then
      (stringBody? quote (rest.length + 1) rest).map fun (s, r) => (String.ofList s, r)
    else none

/-! ## Names -/

def startsName (c : Char) : Bool := c = '$' || c = '_' || Text.isLetter c

def nameBody? : (budget : Nat) → (start : Bool) → List Char → Option (List Char × List Char)
  | 0, _, _ => none
  | _, _, [] => some ([], [])
  | budget + 1, start, c :: rest =>
    if startsName c || (!start && Text.continuesName c) then
      (nameBody? budget false rest).map fun (s, r) => (c :: s, r)
    else
      match c :: rest with
      | '\\' :: 'u' :: rest => do
        let (x, rest) ← unit? rest
        let (s, rest) ← nameBody? budget false rest
        pure (x :: s, rest)
      | rest => some ([], rest)

def name? (text : List Char) : Option (String × List Char) :=
  string? text <|> do
    let (s, rest) ← nameBody? (text.length + 1) true text
    if s.isEmpty then none else pure (String.ofList s, rest)

/-! ## Numbers -/

def exponent : List Char → List Char × List Char
  | e :: rest =>
    let (sign, digits) := match rest with
      | '+' :: r => (['+'], r)
      | '-' :: r => (['-'], r)
      | r => ([], r)
    let run := digits.takeWhile Digits.isDigit
    if (e = 'e' ∨ e = 'E') ∧ !run.isEmpty then
      (e :: sign ++ run, digits.dropWhile Digits.isDigit)
    else ([], e :: rest)
  | [] => ([], [])

/-- The whole part of a numeral: a zero alone, or digits that start with
another. -/
def whole : List Char → List Char × List Char
  | '0' :: rest => (['0'], rest)
  | text => (text.takeWhile Digits.isDigit, text.dropWhile Digits.isDigit)

def decimal? (text : List Char) : Option (List Char × List Char) :=
  let (w, rest) := whole text
  match rest with
  | '.' :: more =>
    let fraction := more.takeWhile Digits.isDigit
    if w.isEmpty ∧ fraction.isEmpty then none
    else
      let (e, rest) := exponent (more.dropWhile Digits.isDigit)
      some (w ++ '.' :: fraction ++ e, rest)
  | rest =>
    if w.isEmpty then none
    else
      let (e, rest) := exponent rest
      some (w ++ e, rest)

/-- What a decimal numeral stands for: a signed word if it is written as an
integer, and otherwise a double, which has to be finite. -/
def decimalValue? (text : List Char) : Option Setting :=
  if text.any fun c => c = '.' ∨ c = 'e' ∨ c = 'E' then do
    let d ← Double.ofText? (String.ofList text)
    if d.isFinite then pure (.float d) else none
  else do
    let i ← Digits.integer? true text
    if Word.IsSigned i then pure (.int i) else none

def maxHex : Nat := 0xffffffff

/-- A number. Hexadecimal numerals have no sign, and no plus sign stands before
an infinity. -/
def number? (text : List Char) : Option (Setting × List Char) :=
  let (sign, rest) := match text with
    | '+' :: r => (['+'], r)
    | '-' :: r => (['-'], r)
    | r => ([], r)
  let hex? := match rest with
    | '0' :: x :: digits =>
      let run := digits.takeWhile fun c => (Hex.value? c).isSome
      if (x = 'x' ∨ x = 'X') ∧ !run.isEmpty then some (run, digits.drop run.length) else none
    | _ => none
  match hex?, decimal? rest with
  | some (run, rest), _ => do
    let n ← Hex.number? run
    if sign.isEmpty ∧ n ≤ maxHex then pure (.int n, rest) else none
  | none, some (numeral, rest) => (decimalValue? (sign ++ numeral)).map (·, rest)
  | none, none =>
    if sign = ['+'] then none
    else if "Infinity".toList.isPrefixOf rest then
      some (.float (Double.infinity (sign = ['-'])), rest.drop "Infinity".length)
    else if "NaN".toList.isPrefixOf rest then some (.float Double.nan, rest.drop "NaN".length)
    else none

/-! ## Values -/

def word? (text : List Char) : Option (Setting × List Char) :=
  let words : List (String × Setting) :=
    [("null", .unset), ("true", .bool true), ("false", .bool false)]
  words.findSome? fun (w, v) =>
    if w.toList.isPrefixOf text then some (v, text.drop w.length) else none

mutual

def value? : (budget : Nat) → List Char → Option (Setting × List Char)
  | 0, _ => none
  | budget + 1, text =>
    match text with
    | '\x7b' :: rest =>
      (members? budget [] (skip rest)).map fun (es, r) => (.table es, r)
    | '[' :: rest => (items? budget (skip rest)).map fun (xs, r) => (.list xs, r)
    | text =>
      match string? text with
      | some (s, rest) => some (.str s, rest)
      | none => word? text <|> number? text

def items? : (budget : Nat) → List Char → Option (List Setting × List Char)
  | 0, _ => none
  | budget + 1, text =>
    match text with
    | ']' :: rest => some ([], rest)
    | text => do
      let (v, rest) ← value? budget text
      match skip rest with
      | ',' :: rest => (items? budget (skip rest)).map fun (xs, r) => (v :: xs, r)
      | ']' :: rest => pure ([v], rest)
      | _ => none

/-- Members up to the closing brace, after those given. Of members of one name
the last counts. -/
def members? : (budget : Nat) → List (String × Setting) → List Char →
    Option (List (String × Setting) × List Char)
  | 0, _, _ => none
  | budget + 1, entries, text =>
    match text with
    | '\x7d' :: rest => some (entries, rest)
    | text => do
      let (name, rest) ← name? text
      let ':' :: rest := skip rest | none
      let (v, rest) ← value? budget (skip rest)
      let entries := Setting.insertEntry name v entries
      match skip rest with
      | ',' :: rest => members? budget entries (skip rest)
      | '\x7d' :: rest => pure (entries, rest)
      | _ => none

end

def read? (text : String) : Option Setting := do
  let text := text.toList
  let (v, rest) ← value? (text.length + 1) (skip text)
  match v with
  | .table entries => if (skip rest).isEmpty then pure (.table entries) else none
  | _ => none

end Vigil.Json5
