import Vigil.Config.Setting
import Vigil.Text.Ranges
import Vigil.Text.Utf8

/-!
# Vigil.Config.Ini — settings written in sections of keys

A text is a row of statements: `[section]`, `key = value` or `key: value`, and
comments, which take whole lines. Every value is a text.

* `Ini.read?` — the settings in a text.
-/

namespace Vigil.Ini

/-! ## Pieces of text -/

/-- Character of a code point in hexadecimal digits, which may have a plus
sign. -/
def codePoint? (digits : List Char) : Option Char := do
  let digits := match digits with
    | '+' :: rest => rest
    | digits => digits
  let n ← Hex.number? digits
  if n.isValidChar then some (Char.ofNat n) else none

/-- The character that a letter after a backslash stands for: most stand for
themselves. -/
def escaped : Char → Char
  | '0' => '\x00'
  | 'a' => '\x07'
  | 'b' => '\x08'
  | 't' => '\t'
  | 'r' => '\r'
  | 'n' => '\n'
  | c => c

/-- What an escape stands for, after its backslash. At the end of a line it
takes the break and the first character of the next line away. -/
def escape? : List Char → Option (List Char × List Char)
  | '\n' :: rest => some ([], rest.drop 1)
  | 'x' :: a :: b :: c :: d :: rest => (codePoint? [a, b, c, d]).map fun x => ([x], rest)
  | 'x' :: _ => none
  | c :: rest => some ([escaped c], rest)
  | [] => none

/-- A piece of text up to a character where it stops, and the text from there
on. Whether it may stop at the end of the text is `toEnd`. -/
def piece? (stops : Char → Bool) (toEnd : Bool) :
    (budget : Nat) → List Char → Option (List Char × List Char)
  | 0, _ => none
  | _, [] => if toEnd then some ([], []) else none
  | budget + 1, c :: rest =>
    if stops c then some ([], c :: rest)
    else if c = '\\' then do
      let (x, rest) ← escape? rest
      let (s, rest) ← piece? stops toEnd budget rest
      pure (x ++ s, rest)
    else (piece? stops toEnd budget rest).map fun (s, r) => (c :: s, r)

def before? (stops : Char → Bool) (text : List Char) : Option (List Char × List Char) :=
  piece? stops false (text.length + 1) text

def line? (text : List Char) : Option (List Char × List Char) :=
  piece? (fun c => c = '\n' || c = '\r') true (text.length + 1) text

def trimmed (s : List Char) : String := String.ofList (Text.trimEnd (Text.trimStart s))

/-- A value: the rest of a line, whose start may be quoted and then go over
several lines. -/
def value? (text : List Char) : Option (String × List Char) := do
  let text := text.dropWhile fun c => Text.isBlank c && c ≠ '\n' && c ≠ '\r'
  let (quoted, rest) ← match text with
    | q :: rest =>
      if q = '"' ∨ q = '\x27' then
        (before? (· = q) rest).map fun (s, r) => (s, r.drop 1)
      else some ([], text)
    | [] => some ([], [])
  let (s, rest) ← line? rest
  pure (trimmed (quoted ++ s), rest)

/-! ## Statements -/

/-- White space off the front, and whether a line starts after it. -/
def skipBlanks : (fresh : Bool) → List Char → Bool × List Char
  | fresh, [] => (fresh, [])
  | fresh, c :: rest => if Text.isBlank c then skipBlanks (c = '\n') rest else (fresh, c :: rest)

structure State where
  entries : List (String × Setting)
  /-- No section is open at the start of a text. -/
  current? : Option String

namespace State

/-- Open a section, which is empty even if there was one of its name. -/
def openSection (s : State) (name : String) : State :=
  ⟨Setting.insertEntry name (.table []) s.entries, some name⟩

def set (s : State) (key value : String) : State :=
  match s.current? with
  | none => { s with entries := Setting.insertEntry key (.str value) s.entries }
  | some name =>
    let old := ((s.entries.lookup name).getD (.table [])).entries
    let new := Setting.insertEntry key (.str value) old
    { s with entries := Setting.insertEntry name (.table new) s.entries }

end State

/-- Statements up to the end of a text. A comment has to begin its line, and a
key is not empty. -/
def statements? : (budget : Nat) → State → (fresh : Bool) → List Char → Option State
  | 0, _, _, _ => none
  | budget + 1, state, fresh, text =>
    match skipBlanks fresh text with
    | (_, []) => some state
    | (fresh, c :: rest) =>
      if c = ';' ∨ c = '#' then
        if fresh then statements? budget state true ((rest.dropWhile (· ≠ '\n')).drop 1) else none
      else if c = '[' then do
        let (name, rest) ← before? (· = ']') rest
        statements? budget (state.openSection (trimmed name)) false (rest.drop 1)
      else do
        let (key, rest) ← before? (fun c => c = '=' || c = ':') (c :: rest)
        let key := trimmed key
        let (v, rest) ← value? (rest.drop 1)
        if key.isEmpty then none else statements? budget (state.set key v) false rest

def read? (text : String) : Option Setting :=
  let text := text.toList
  (statements? (text.length + 1) ⟨[], none⟩ true text).map fun s => .table s.entries

end Vigil.Ini
