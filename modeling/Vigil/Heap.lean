import Vigil.Table
import Vigil.Vec

/-!
# Vigil.Heap — the shared collections

Tables and vectors live in the heap and values refer to them. A reference is
never taken back, and collections are only ever added, so a reference once
valid stays valid.

* `typeOf` — the dynamic type of a value.
* `fresh?` — a new empty collection of a type.
* `render` — the text `print` shows. A collection may contain others; the
  depth argument bounds how deep the text goes, and a value that does not
  contain itself is always shown within `depthBound`.
-/

namespace Vigil

structure Heap where
  tables : Array Table
  vecs : Array Vec
deriving DecidableEq, Repr, Inhabited

namespace Heap

def empty : Heap := ⟨#[], #[]⟩

def table (h : Heap) (r : TableRef) : Table := (h.tables[r.idx]?).getD default

def vec (h : Heap) (r : VecRef) : Vec := (h.vecs[r.idx]?).getD default

def setTable (h : Heap) (r : TableRef) (t : Table) : Heap :=
  { h with tables := h.tables.setIfInBounds r.idx t }

def setVec (h : Heap) (r : VecRef) (v : Vec) : Heap :=
  { h with vecs := h.vecs.setIfInBounds r.idx v }

def addTable (h : Heap) (t : Table) : TableRef × Heap :=
  (⟨h.tables.size⟩, { h with tables := h.tables.push t })

def addVec (h : Heap) (v : Vec) : VecRef × Heap :=
  (⟨h.vecs.size⟩, { h with vecs := h.vecs.push v })

def fresh? (h : Heap) (ty : Ty) : Option (Value × Heap) :=
  match ty with
  | .vector elem =>
    let (r, h) := h.addVec (.empty elem)
    some (.vector r, h)
  | ty => (Table.ofTy? ty).map fun t =>
    let (r, h) := h.addTable t
    (.table r, h)

def typeOf (h : Heap) : Value → Ty
  | .table r => (h.table r).ty
  | .vector r => .vector (h.vec r).elem
  | v => v.atomTy

/-- Whether a value may be viewed as one of type `ty`. -/
def canView (h : Heap) (v : Value) (ty : Ty) : Bool :=
  match ty, v with
  | .any, _ => true
  | .double, .double _ => true
  | .double, _ => false
  | ty, v => (h.typeOf v).same ty

def view? (h : Heap) (v : Value) (ty : Ty) : Option Value :=
  if h.canView v ty then some v else none

/-! ## Text -/

def atomText : Value → String
  | .bool b => if b then "T" else "F"
  | .int i => Digits.ofInt i.toInt
  | .count c => Digits.padded 1 c.toNat
  | .double d => d.fixed 6
  | .str s => Utf8.lossy s
  | .time t => t.text
  | .interval d => d.text
  | .table _ | .vector _ => ""

def render (h : Heap) : (depth : Nat) → Value → Except Stop String
  | 0, .table _ | 0, .vector _ => throw .exhausted
  | depth + 1, .table r => do
    let entries ← (h.table r).toList.mapError Stop.abort
    let parts ← entries.mapM fun (index, v) => do
      let index := ", ".intercalate (index.map atomText)
      match v with
      | some v => do
        let text ← render h depth v
        pure ("[" ++ index ++ "] = " ++ text)
      | none => pure index
    pure ("\x7b" ++ ", ".intercalate parts ++ "\x7d")
  | depth + 1, .vector r => do
    let parts ← (h.vec r).slots.toList.mapM fun
      | some v => render h depth v
      | none => pure ""
    pure ("[" ++ ", ".intercalate parts ++ "]")
  | _, v => pure (atomText v)

/-- A depth no value without a cycle exceeds. -/
def depthBound (h : Heap) : Nat := h.tables.size + h.vecs.size + 1

def text (h : Heap) (v : Value) : Except Stop String := h.render h.depthBound v

end Heap

end Vigil
