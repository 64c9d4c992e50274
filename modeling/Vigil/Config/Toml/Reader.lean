import Vigil.Config.Toml.Scalar
import Vigil.Config.Toml.Tree

/-!
# Vigil.Config.Toml.Reader — configuration files

Reads a tree of settings from TOML: tables and series of tables, dotted and
quoted keys, strings, integers, floats, truth values, times, arrays and inline
tables.

Nested values are read within a bound on their depth and one on the length of
the text.
-/

namespace Vigil.Toml

/-! ## Values -/

def isScalarChar (c : Char) : Bool := c.isAlphanum || c = '_' || c = '+' || c = '-' || c = '.'

def scalar? (text : List Char) : Option (Setting × List Char) :=
  match stamp? text with
  | some (stamp, rest) => some (.str stamp, rest)
  | none =>
    let word := text.takeWhile isScalarChar
    let rest := text.dropWhile isScalarChar
    if word = "true".toList then some (.bool true, rest)
    else if word = "false".toList then some (.bool false, rest)
    else (number? word).map fun v => (v, rest)

mutual

/-- A value with at most `depth` levels of arrays and inline tables. -/
def value? : (budget depth : Nat) → List Char → Option (Setting × List Char)
  | 0, _, _ => none
  | budget + 1, depth, text =>
    match text, depth with
    | '"' :: rest, _ => (string? '"' rest).map fun (s, r) => (.str s, r)
    | '\x27' :: rest, _ => (string? '\x27' rest).map fun (s, r) => (.str s, r)
    | '[' :: rest, depth + 1 => (items? budget depth rest).map fun (xs, r) => (.list xs, r)
    | '\x7b' :: rest, depth + 1 =>
      match skipBlanks rest with
      | '\x7d' :: rest => some (.table [], rest)
      | rest => (pairs? budget depth [] rest).map fun (es, r) => (.table (Node.settings es), r)
    | text, _ => scalar? text

def items? : (budget depth : Nat) → List Char → Option (List Setting × List Char)
  | 0, _, _ => none
  | budget + 1, depth, text => do
    match ← skipSpace? budget text with
    | ']' :: rest => some ([], rest)
    | rest => do
      let (v, rest) ← value? budget depth rest
      match ← skipSpace? budget rest with
      | ',' :: rest =>
        let (vs, rest) ← items? budget depth rest
        pure (v :: vs, rest)
      | ']' :: rest => pure ([v], rest)
      | _ => none

def pairs? : (budget depth : Nat) → Entries → List Char → Option (Entries × List Char)
  | 0, _, _, _ => none
  | budget + 1, depth, es, text => do
    let (key, rest) ← key? text
    match rest with
    | '=' :: rest =>
      let (v, rest) ← value? budget depth (skipBlanks rest)
      let es ← es.define? key v
      match skipBlanks rest with
      | ',' :: rest => pairs? budget depth es rest
      | '\x7d' :: rest => pure (es, rest)
      | _ => none
    | _ => none

end

/-! ## Documents -/

structure Draft where
  entries : Entries
  current : List String

def statement? (budget : Nat) (d : Draft) (text : List Char) : Option (Draft × List Char) := do
  match text with
  | '[' :: '[' :: rest =>
    let (path, rest) ← key? rest
    match rest with
    | ']' :: ']' :: rest => pure (⟨← d.entries.openItem? path, path⟩, ← lineEnd? rest)
    | _ => none
  | '[' :: rest =>
    let (path, rest) ← key? rest
    match rest with
    | ']' :: rest => pure (⟨← d.entries.openTable? path, path⟩, ← lineEnd? rest)
    | _ => none
  | text =>
    let (key, rest) ← key? text
    match rest with
    | '=' :: rest =>
      let (v, rest) ← value? budget maxNesting (skipBlanks rest)
      pure (⟨← d.entries.defineAt? d.current key v, d.current⟩, ← lineEnd? rest)
    | _ => none

def document? : (budget : Nat) → Draft → List Char → Option Setting
  | 0, _, _ => none
  | budget + 1, d, text => do
    match ← skipSpace? budget text with
    | [] => pure (.table (Node.settings d.entries))
    | text => do
      let (d, rest) ← statement? budget d text
      document? budget d rest

def read? (text : String) : Option Setting :=
  let chars := match text.toList with
    | '\ufeff' :: rest => rest
    | cs => cs
  document? (chars.length + 1) ⟨[], []⟩ chars

end Vigil.Toml
