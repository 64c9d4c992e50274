import Vigil.Fault
import Vigil.Value

/-!
# Vigil.Vec — vectors and slots

A row of slots, each with or without a value. Storing past the end grows the
row with empty slots; a row has a largest size, and storing beyond it aborts
without changing the row. Vectors of scripts and variable frames are both
such rows.
-/

namespace Vigil

abbrev Slots := Array (Option Value)

namespace Slots

/-- Most slots a row can have: each takes 24 bytes of a memory whose size is a
signed word. -/
def maxSize : Nat := 0x7fffffffffffffff / 24

def get (s : Slots) (i : Nat) : Option Value := (s[i]?).join

def set (s : Slots) (i : Nat) (v : Value) : Except Abort Slots :=
  if i < s.size then pure (s.setIfInBounds i (some v))
  else if i < maxSize then pure ((s ++ Array.replicate (i - s.size) none).push (some v))
  else throw .capacity

/-- Empty a slot; slots past the end stay as they are. -/
def clear (s : Slots) (i : Nat) : Slots := s.setIfInBounds i none

end Slots

structure Vec where
  elem : Ty
  slots : Slots
deriving DecidableEq, Repr, Inhabited

namespace Vec

def empty (elem : Ty) : Vec := ⟨elem, #[]⟩

def size (v : Vec) : Nat := v.slots.size

def lookup (v : Vec) (i : Nat) : Option Value := v.slots.get i

def assign (v : Vec) (i : Nat) (x : Value) : Except Abort Vec := do
  pure { v with slots := ← v.slots.set i x }

/-- Empty a slot; also says whether it held a value. -/
def remove (v : Vec) (i : Nat) : Bool × Vec :=
  ((v.lookup i).isSome, { v with slots := v.slots.clear i })

end Vec

end Vigil
