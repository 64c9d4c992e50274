import Vigil.Fault
import Vigil.Value

/-!
# Vigil.Key — tuples of atomic values as bytes

A key is the concatenation of its components' encodings, laid out by a list
of types. Every encoding has a fixed width or starts with its length, so a
key can be read back with the types alone. Tables are indexed by keys and
switches dispatch on them, so two values that address one table entry also
select one case.

* `encode?` — the key of a tuple, `none` when the arity differs or a
  component cannot be part of a key.
* `decode` — the tuple a key was made of.
* `order` — the byte order in which tables are kept.
-/

namespace Vigil

/-- Canonical encoding of an index tuple. -/
abbrev Key := Bytes

namespace Key

/-! ## Words -/

/-- The low `width` bytes of `n`, highest first. -/
def word : (width : Nat) → Nat → Bytes
  | 0, _ => []
  | width + 1, n => UInt8.ofNat (n / Nat.pow 256 width) :: word width n

def number (bytes : Bytes) : Nat := bytes.foldl (fun n b => 256 * n + b.toNat) 0

/-- The two's complement of `i` in `width` bytes. -/
def signedWord (width : Nat) (i : Int) : Bytes := word width (i % (Nat.pow 256 width : Nat)).toNat

/-- Two's complement reading of `width` bytes. -/
def signed (bytes : Bytes) : Int :=
  let n := number bytes
  let size := Nat.pow 256 bytes.length
  if 2 * n < size then n else (n : Int) - size

/-! ## Encoding -/

/-- Bytes of one component; collections have none, nor has a string whose
length needs more than four bytes. -/
def component? : Value → Option Bytes
  | .bool b => some [if b then 1 else 0]
  | .int i => some (signedWord 8 i.toInt)
  | .count c => some (word 8 c.toNat)
  | .double d =>
    -- the two zeros are equal and must share a key
    some (word 8 (if d.isZero then 0 else d.bits.toNat))
  | .str s => if s.length < Nat.pow 256 4 then some (word 4 s.length ++ s) else none
  | .time t => some (signedWord 8 t.secs ++ word 4 t.nanos)
  | .interval d => some (signedWord 8 d.wholeSeconds ++ signedWord 4 d.subsecNanos)
  | .table _ | .vector _ => none

/-- Key of a tuple laid out by `types`; with `check`, each component must be
of the kind its type names. -/
def encode? (check : Bool) : List Ty → List Value → Option Key
  | [], [] => some []
  | ty :: types, v :: vals =>
    if check && !v.ofKind ty then none
    else do
      let front ← component? v
      let rest ← encode? check types vals
      pure (front ++ rest)
  | _, _ => none

/-! ## Decoding -/

def split? (n : Nat) (bytes : Bytes) : Option (Bytes × Bytes) :=
  if n ≤ bytes.length then some (bytes.take n, bytes.drop n) else none

/-- Read one component; `none` when the bytes do not spell one. Seconds of an
interval that are out of range abort. -/
def readOne (ty : Ty) (bytes : Bytes) : Except Abort (Option (Value × Bytes)) :=
  match ty with
  | .bool => pure <| do
    let (w, rest) ← split? 1 bytes
    pure (.bool (number w != 0), rest)
  | .int => pure <| do
    let (w, rest) ← split? 8 bytes
    pure (.int (Int64.ofInt (signed w)), rest)
  | .count => pure <| do
    let (w, rest) ← split? 8 bytes
    pure (.count (UInt64.ofNat (number w)), rest)
  | .double => pure <| do
    let (w, rest) ← split? 8 bytes
    pure (.double ⟨UInt64.ofNat (number w)⟩, rest)
  | .string => pure <| do
    let (w, rest) ← split? 4 bytes
    let (s, rest) ← split? (number w) rest
    pure (.str s, rest)
  | .time => pure <| do
    let (s, rest) ← split? 8 bytes
    let (n, rest) ← split? 4 rest
    let t ← Instant.of? (signed s) (number n)
    pure (.time t, rest)
  | .interval =>
    match (do
      let (s, rest) ← split? 8 bytes
      let (n, rest) ← split? 4 rest
      pure (signed s, signed n, rest) : Option (Int × Int × Bytes)) with
    | none => pure none
    | some (seconds, nanos, rest) =>
      match Interval.ofParts? seconds nanos with
      | some d => pure (some (.interval d, rest))
      | none => throw .timeRange
  | _ => pure none

/-- Read a tuple laid out by `types`; no byte may be left over. -/
def decode : List Ty → Key → Except Abort (Option (List Value))
  | [], bytes => pure (if bytes.isEmpty then some [] else none)
  | ty :: types, bytes => do
    match ← readOne ty bytes with
    | none => pure none
    | some (v, rest) =>
      match ← decode types rest with
      | none => pure none
      | some vals => pure (some (v :: vals))

/-! ## Order -/

/-- Byte order: lexicographic, a proper beginning first. -/
def order : Key → Key → Ordering
  | [], [] => .eq
  | [], _ :: _ => .lt
  | _ :: _, [] => .gt
  | a :: as, b :: bs => (compare a b).then (order as bs)

end Key

end Vigil
