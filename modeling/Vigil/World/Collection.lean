import Vigil.World.Basic

/-!
# Vigil.World.Collection — elements of collections

Reading, storing, adding and removing elements of a container known by its
value, and the two tests on containers: membership and size. A value that is
no container, or one of the wrong sort, is an error of the script; a vector
indexed with no index at all aborts.
-/

namespace Vigil

/-- Whether `needle` occurs in the bytes as one piece. -/
def Bytes.occursIn (needle : Bytes) : Bytes → Bool
  | [] => needle.isEmpty
  | b :: rest => needle.isPrefixOf (b :: rest) || occursIn needle rest

namespace Exec

/-! ## Access to the heap -/

def modifyTable (r : TableRef) (g : Table → Table) : Exec Unit := do
  let h ← heap
  setHeap (h.setTable r (g (h.table r)))

def typeOf (v : Value) : Exec Ty := do pure ((← heap).typeOf v)

def vectorIndex : Value → Exec Nat
  | .count c => pure c.toNat
  | .int i => if 0 ≤ i.toInt then pure i.toInt.toNat else fault .noSuchIndex
  | v => do mismatch (.vectorIndex (← typeOf v))

/-- Position an index names in a vector; components after the first are not
looked at. -/
def vectorPosition : List Value → Exec Nat
  | [] => abort .emptyIndex
  | v :: _ => vectorIndex v

/-! ## Elements -/

def element (container : Value) (index : List Value) : Exec Value := do
  match container with
  | .table r =>
    let t := (← heap).table r
    if t.isSet then mismatch .setLookup
    else
      match ← ofFault (t.lookup index) with
      | some v => pure v
      | none => fault .noSuchIndex
  | .vector r =>
    let i ← vectorPosition index
    match ((← heap).vec r).lookup i with
    | some v => pure v
    | none => fault .noSuchIndex
  | v => mismatch (.notIndexable (← typeOf v))

def storeElement (container : Value) (index : List Value) (v : Value) : Exec Unit := do
  match container with
  | .table r =>
    let h ← heap
    let t ← ofFault ((h.table r).assign index (some v))
    setHeap (h.setTable r t)
  | .vector r =>
    let i ← vectorPosition index
    let h ← heap
    let x ← ofAbort ((h.vec r).assign i v)
    setHeap (h.setVec r x)
  | c => mismatch (.notAssignable (← typeOf c))

def addElement (container : Value) (index : List Value) : Exec Unit := do
  match container with
  | .table r =>
    let h ← heap
    let t ← ofFault ((h.table r).assign index none)
    setHeap (h.setTable r t)
  | _ => mismatch .addTarget

/-- Remove the element under an index; there need not be one. -/
def deleteElement (container : Value) (index : List Value) : Exec Unit := do
  match container with
  | .table r =>
    let h ← heap
    let (_, t) ← ofFault ((h.table r).remove index)
    setHeap (h.setTable r t)
  | .vector r =>
    let i ← vectorPosition index
    let h ← heap
    setHeap (h.setVec r ((h.vec r).remove i).2)
  | c => mismatch (.notDeletable (← typeOf c))

/-! ## Tests -/

/-- Whether a tuple is an index of a table, a filled position of a vector, or
a piece of a string. A value that names no position is in no vector. -/
def isMember (container : Value) (elem : List Value) : Exec Bool := do
  match container, elem with
  | .table r, elem => ofFault (((← heap).table r).contains elem)
  | .vector r, [i] =>
    onFault
      (do
        let i ← vectorIndex i
        pure (((← heap).vec r).lookup i).isSome)
      fun _ => pure false
  | .str s, [.str needle] => pure (Bytes.occursIn needle s)
  | c, _ => mismatch (.notMembership (← typeOf c))

/-- Number of elements of a container, magnitude of a number. -/
def sizeOf (v : Value) : Exec Value := do
  match v with
  | .table r => pure (.count (.ofNat ((← heap).table r).size))
  | .vector r => pure (.count (.ofNat ((← heap).vec r).size))
  | .str s => pure (.count (.ofNat s.length))
  | .count c => pure (.count c)
  | .int i => pure (.count (.ofNat i.toInt.natAbs))
  | .double d => pure (.double d.abs)
  | .interval d => pure (.interval d.abs)
  | v => mismatch (.noSize (← typeOf v))

end Exec

end Vigil
