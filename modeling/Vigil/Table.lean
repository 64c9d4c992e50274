import Vigil.Key

/-!
# Vigil.Table — tables and sets

A table keeps its entries in the byte order of their keys. Indices are first
widened to the declared index types, so a count finds the entry an int made.

An iteration is a cursor over the keys present when it started. Entries
removed before the cursor reaches them are skipped and entries added later
are not visited. The table counts the cursors that are neither exhausted nor
released.
-/

namespace Vigil

/-- A table, or a set when there is no yield type. -/
structure Table where
  index : List Ty
  yield : Option Ty
  /-- Entries by key, in key order. Set elements carry no value. -/
  entries : List (Key × Option Value)
  /-- Cursors not yet released. -/
  active : Nat
deriving DecidableEq, Repr, Inhabited

namespace Table

def ofTy? : Ty → Option Table
  | .table index y => some ⟨index, some y, [], 0⟩
  | .set index => some ⟨index, none, [], 0⟩
  | _ => none

def ty (t : Table) : Ty :=
  match t.yield with
  | some y => .table t.index y
  | none => .set t.index

def isSet (t : Table) : Bool := t.yield.isNone

def size (t : Table) : Nat := t.entries.length

/-! ## Entries by key -/

/-- Insert or overwrite, keeping the order. -/
def insertKey (k : Key) (v : Option Value) : List (Key × Option Value) → List (Key × Option Value)
  | [] => [(k, v)]
  | (k', v') :: rest =>
    match Key.order k k' with
    | .lt => (k, v) :: (k', v') :: rest
    | .eq => (k, v) :: rest
    | .gt => (k', v') :: insertKey k v rest

/-- The entry under a key: its value, if it carries one. -/
def find? (k : Key) : List (Key × Option Value) → Option (Option Value)
  | [] => none
  | (k', v) :: rest => if k' = k then some v else find? k rest

def eraseKey (k : Key) : List (Key × Option Value) → List (Key × Option Value)
  | [] => []
  | (k', v) :: rest => if k' = k then rest else (k', v) :: eraseKey k rest

/-! ## Entries by index -/

/-- Components widened to the declared types; components without a declared
type stay as they are. -/
def widen : List Ty → List Value → List Value
  | ty :: types, v :: vals => v.coerce ty :: widen types vals
  | _, vals => vals

/-- Key of an index, or the error of an unfitting one. -/
def key (t : Table) (index : List Value) : Except Fault Key :=
  match Key.encode? true t.index (widen t.index index) with
  | some k => pure k
  | none => throw (.typeMismatch (.badIndex t.ty))

def assign (t : Table) (index : List Value) (v : Option Value) : Except Fault Table := do
  let k ← t.key index
  pure { t with entries := insertKey k v t.entries }

def contains (t : Table) (index : List Value) : Except Fault Bool := do
  let k ← t.key index
  pure (find? k t.entries).isSome

def lookup (t : Table) (index : List Value) : Except Fault (Option Value) := do
  let k ← t.key index
  pure (find? k t.entries).join

/-- Remove an entry; also says whether there was one. -/
def remove (t : Table) (index : List Value) : Except Fault (Bool × Table) := do
  let k ← t.key index
  pure ((find? k t.entries).isSome, { t with entries := eraseKey k t.entries })

/-- The index an entry key was made of. -/
def indexOf (t : Table) (k : Key) : Except Abort (List Value) := do
  match ← Key.decode t.index k with
  | some vals => pure vals
  | none => throw (.broken (.undecodableKey t.ty))

def toList (t : Table) : Except Abort (List (List Value × Option Value)) :=
  t.entries.mapM fun (k, v) => do pure (← t.indexOf k, v)

/-! ## Iteration -/

/-- An iteration under way: the keys not yet visited. -/
structure Cursor where
  keys : List Key
  live : Bool
deriving DecidableEq, Repr

def keys (t : Table) : List Key := t.entries.map (·.1)

def enter (t : Table) : Table := { t with active := t.active + 1 }

def leave (t : Table) : Table := { t with active := t.active - 1 }

def start (t : Table) : Cursor × Table := (⟨t.keys, true⟩, t.enter)

/-- End an iteration; ending it twice changes nothing. -/
def release (t : Table) (c : Cursor) : Cursor × Table :=
  if c.live then (⟨[], false⟩, t.leave) else (c, t)

/-- The first of the keys that still has an entry, and the keys after it. -/
def firstPresent (t : Table) : List Key → Option (Key × Option Value × List Key)
  | [] => none
  | k :: rest =>
    match find? k t.entries with
    | some v => some (k, v, rest)
    | none => firstPresent t rest

/-- The next entry; reaching the end releases the cursor. -/
def next (t : Table) (c : Cursor) : Option (Key × Option Value) × Cursor × Table :=
  if c.live then
    match t.firstPresent c.keys with
    | some (k, v, rest) => (some (k, v), ⟨rest, true⟩, t)
    | none =>
      let (c, t) := t.release c
      (none, c, t)
  else (none, c, t)

end Table

end Vigil
