import Vigil.Proofs.Exec.Run
import Vigil.Script
import Mathlib.Logic.Relation

/-!
# Vigil.Proofs.History — what a host does with an engine

The operations a host performs on an engine, one constructor each, and the
worlds they lead to. An operation takes a step when it returns: the error of a
script ends its run and nothing else, while an abort, or a loop that does not
end within the given budget, is no step at all (`Reachable`). What an engine
guarantees even after such an end is said of the worlds left behind by any
sequence of operations (`Possible`).
-/

namespace Vigil

/-- An operation of the host. -/
inductive HostOp where
  | newFrame (size : Nat) (session : Option SessionId)
  /-- Bind a variable of a frame from outside. -/
  | bind (f : FrameRef) (slot : Nat) (v : Value)
  | run (script : Script) (f : FrameRef)
  | checkAll
  | expire (now : Instant)
  | advance (time : Instant)
  | newSession
  | closeSession (s : SessionId)
  | cancelAll

namespace HostOp

/-- Perform an operation; loops get `fuel` rounds. -/
def perform (fuel : Nat) : HostOp → Exec Unit
  | .newFrame size session => modify fun w => (w.addFrame size session).2
  | .bind f slot v => Exec.writeSlot f slot v
  | .run script f => Exec.onFault (do let _ ← script.run fuel f) fun _ => pure ()
  | .checkAll => World.checkAll fuel
  | .expire now => World.expire fuel now
  | .advance time => World.advance fuel time
  | .newSession => modify fun w => w.newSession.2
  | .closeSession s => modify (World.closeSession s)
  | .cancelAll => modify World.cancelAll

/-- Whether an operation makes a pass over all that waits. -/
def isPass : HostOp → Bool
  | .checkAll | .advance _ => true
  | _ => false

/-- The time at which an operation lets deadlines come. -/
def expiry? : HostOp → Option Instant
  | .expire now | .advance now => some now
  | _ => none

end HostOp

namespace World

open Relation (ReflTransGen)

variable {w : World}

/-- Some operation of the host leads from `w` to `w'`. -/
def HostStep (w w' : World) : Prop :=
  ∃ (op : HostOp) (fuel : Nat), (op.perform fuel).runFrom w = (.ok (), w')

/-- An operation that returns takes a step. -/
theorem HostStep.of_ok {op : HostOp} {fuel : Nat} (h : ((op.perform fuel).runFrom w).1.isOk) :
    HostStep w ((op.perform fuel).leaves w) :=
  ⟨op, fuel, Exec.runFrom_of_isOk h⟩

/-- Some sequence of operations leads from `w` to `w'`. -/
def Later : World → World → Prop := ReflTransGen HostStep

/-- Some history of an engine leads to `w`. -/
def Reachable (w : World) : Prop := ∃ now limits, Later (.start now limits) w

/-- A property of fresh engines that every operation keeps holds of every
engine. -/
theorem Reachable.invariant {I : World → Prop} (hstart : ∀ now limits, I (.start now limits))
    (hstep : ∀ w w', HostStep w w' → I w → I w') (hw : Reachable w) : I w := by
  obtain ⟨now, limits, h⟩ := hw
  induction h with
  | refl => exact hstart now limits
  | tail _ hop ih => exact hstep _ _ hop ih

/-- Some sequence of operations, whatever came of each of them, leads from `w`
to `w'`. -/
def Ever : World → World → Prop :=
  ReflTransGen fun w w' => ∃ (op : HostOp) (fuel : Nat), w' = (op.perform fuel).leaves w

/-- Some history of an engine, with operations that broke off in it, leads to
`w`. -/
def Possible (w : World) : Prop := ∃ now limits, Ever (.start now limits) w

theorem Ever.perform {w₀ : World} (h : Ever w₀ w) (op : HostOp) (fuel : Nat) :
    Ever w₀ ((op.perform fuel).leaves w) :=
  h.tail ⟨op, fuel, rfl⟩

end World

end Vigil
