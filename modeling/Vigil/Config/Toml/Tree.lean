import Vigil.Config.Setting

/-!
# Vigil.Config.Toml.Tree — the tables of a document under way

A table may come about in three ways: by a header or as a value, on the way to
a header further in, or by a dotted key. How it did decides what may still be
added to it: a header opens a table only once, a dotted key does not reach
into a table that a header opened, and a key is given only once.
-/

namespace Vigil.Toml

inductive Origin where
  /-- By a header of its own; the whole document counts as one. -/
  | header
  /-- On the way to a header further in. -/
  | passage
  | dotted
deriving DecidableEq, Repr

inductive Node where
  | value (s : Setting)
  | table (origin : Origin) (entries : List (String × Node))
  /-- Tables under one repeated header, the last one apart. -/
  | series (earlier : List (List (String × Node))) (last : List (String × Node))

abbrev Entries := List (String × Node)

namespace Node

mutual

def setting : Node → Setting
  | .value s => s
  | .table _ es => .table (settings es)
  | .series earlier last => .list (tables earlier ++ [.table (settings last)])

def settings : List (String × Node) → List (String × Setting)
  | [] => []
  | (key, n) :: rest => (key, setting n) :: settings rest

def tables : List (List (String × Node)) → List Setting
  | [] => []
  | es :: rest => .table (settings es) :: tables rest

end

end Node

namespace Entries

/-- Change the table at a path; tables that are missing on the way come about
by `made`. The change also gets to know how its table came about. -/
def update? (made : Origin) (change : Origin → Entries → Option Entries) :
    List String → Origin → Entries → Option Entries
  | [], origin, es => change origin es
  | key :: path, _, es =>
    match es.lookup key with
    | none => do
      let inner ← update? made change path made []
      pure (Setting.insertEntry key (.table made inner) es)
    | some (.table origin inner) =>
      if made = .dotted ∧ origin = .header then none
      else do
        let inner ← update? made change path origin inner
        pure (Setting.insertEntry key (.table origin inner) es)
    | some (.series earlier last) => do
      let last ← update? made change path .header last
      pure (Setting.insertEntry key (.series earlier last) es)
    | some (.value _) => none

/-- Add a value under a key, which may be dotted. -/
def define? (key : List String) (v : Setting) (es : Entries) : Option Entries :=
  match key.getLast? with
  | none => none
  | some name =>
    let path := key.dropLast
    let add (origin : Origin) (es : Entries) : Option Entries :=
      -- what a dotted key adds to has to come from dotted keys, all else must not
      if (origin = .dotted) ↔ path.isEmpty then none
      else if (es.lookup name).isSome then none
      else some (es ++ [(name, .value v)])
    update? .dotted add path .header es

def openTable? (path : List String) (es : Entries) : Option Entries :=
  match path.getLast? with
  | none => none
  | some name =>
    let add (_ : Origin) (es : Entries) : Option Entries :=
      match es.lookup name with
      | none => some (es ++ [(name, .table .header [])])
      | some (.table .passage inner) => some (Setting.insertEntry name (.table .header inner) es)
      | some _ => none
    update? .passage add path.dropLast .header es

def openItem? (path : List String) (es : Entries) : Option Entries :=
  match path.getLast? with
  | none => none
  | some name =>
    let add (_ : Origin) (es : Entries) : Option Entries :=
      match es.lookup name with
      | none => some (es ++ [(name, .series [] [])])
      | some (.series earlier last) =>
        some (Setting.insertEntry name (.series (earlier ++ [last]) []) es)
      | some _ => none
    update? .passage add path.dropLast .header es

def defineAt? (path key : List String) (v : Setting) (es : Entries) : Option Entries :=
  update? .passage (fun _ es => define? key v es) path .header es

end Entries

end Vigil.Toml
