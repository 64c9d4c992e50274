import Vigil.Text.Utf8
import Vigil.Time.Instant
import Vigil.Ty

/-!
# Vigil.Value — run-time values

Atomic values are plain data. Tables and vectors are shared: a value only
holds a reference to the collection, which lives in the heap, and two such
values are equal when they refer to the same collection.
-/

namespace Vigil

structure TableRef where
  idx : Nat
deriving DecidableEq, Repr, Inhabited

structure VecRef where
  idx : Nat
deriving DecidableEq, Repr, Inhabited

inductive Value where
  | bool (b : Bool)
  | int (i : Int64)
  | count (c : UInt64)
  | double (d : Double)
  | str (bytes : Bytes)
  | time (t : Instant)
  | interval (d : Interval)
  | table (ref : TableRef)
  | vector (ref : VecRef)
deriving DecidableEq, Repr, Inhabited

namespace Value

def tagName : Value → String
  | .bool _ => "bool"
  | .int _ => "int"
  | .count _ => "count"
  | .double _ => "double"
  | .str _ => "string"
  | .time _ => "time"
  | .interval _ => "interval"
  | .table _ => "table"
  | .vector _ => "vector"

/-- Type of an atomic value; collections have theirs in the heap. -/
def atomTy : Value → Ty
  | .bool _ => .bool
  | .int _ => .int
  | .count _ => .count
  | .double _ => .double
  | .str _ => .string
  | .time _ => .time
  | .interval _ => .interval
  | .table _ | .vector _ => .any

/-- Whether the value is of the kind a type names, components aside. -/
def ofKind : Value → Ty → Bool
  | .bool _, .bool | .int _, .int | .count _, .count | .double _, .double
  | .str _, .string | .time _, .time | .interval _, .interval
  | .table _, .table .. | .table _, .set _ | .vector _, .vector _ => true
  | _, _ => false

/-- Condition test: zero takes the false branch. Strings, times and
collections are never zero. -/
def isZero : Value → Bool
  | .bool b => !b
  | .int i => i == 0
  | .count c => c == 0
  | .double d => d.isZero
  | .interval d => d.isZero
  | .str _ | .time _ | .table _ | .vector _ => false

/-- Equality of values: doubles by their number, collections by identity. -/
def equal : Value → Value → Bool
  | .bool a, .bool b => a == b
  | .int a, .int b => a == b
  | .count a, .count b => a == b
  | .double a, .double b => a.numEq b
  | .str a, .str b => a == b
  | .time a, .time b => a == b
  | .interval a, .interval b => a == b
  | .table a, .table b => a == b
  | .vector a, .vector b => a == b
  | _, _ => false

def bool? : Value → Option Bool
  | .bool b => some b
  | _ => none

/-- A count, or an int that is not negative. -/
def count? : Value → Option Nat
  | .count c => some c.toNat
  | .int i => if 0 ≤ i.toInt then some i.toInt.toNat else none
  | _ => none

def bytes? : Value → Option Bytes
  | .str s => some s
  | _ => none

def double? : Value → Option Double
  | .int i => some (Double.ofInt i.toInt)
  | .count c => some (Double.ofInt c.toNat)
  | .double d => some d
  | _ => none

/-- An integer as a signed word; counts are reinterpreted. -/
def int? : Value → Option Int64
  | .int i => some i
  | .count c => some c.toInt64
  | _ => none

/-- The number as a slot of type `ty` stores it. -/
def coerce (v : Value) (ty : Ty) : Value :=
  match ty, v with
  | .double, .int i => .double (Double.ofInt i.toInt)
  | .double, .count c => .double (Double.ofInt c.toNat)
  | .int, .count c => .int c.toInt64
  | _, v => v

end Value

end Vigil
