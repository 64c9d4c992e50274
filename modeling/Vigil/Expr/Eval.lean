import Vigil.Expr.Arith
import Vigil.World.Collection

/-!
# Vigil.Expr.Eval — evaluating expressions

Operands are evaluated from left to right. A container is evaluated before
its index, the right side of an assignment before its target, and the second
operand of a logical operator only when the first does not decide.
-/

namespace Vigil.Expr

mutual

def eval (f : FrameRef) : Expr → Exec Value
  | .const v _ => pure v
  | .name id _ =>
    match id.const? with
    | some v => pure v
    | none => Exec.readSlot f id.slot id.name
  | .unary op e _ => do
    let v ← eval f e
    Exec.ofStop (op.apply (← Exec.heap) v)
  | .binary .and l r _ => do
    let a ← eval f l
    if a.isZero then pure (.bool false)
    else
      let b ← eval f r
      pure (.bool !b.isZero)
  | .binary .or l r _ => do
    let a ← eval f l
    if a.isZero then
      let b ← eval f r
      pure (.bool !b.isZero)
    else pure (.bool true)
  | .binary op l r _ => do
    let a ← eval f l
    let b ← eval f r
    Exec.ofStop (op.apply (← Exec.heap) a b)
  | .assign target value _ => do
    let v ← eval f value
    let v := v.coerce target.ty
    store f target v
    pure v
  | .index target is _ => do
    let container ← eval f target
    let is ← evalList f is
    Exec.element container is
  | .member elem target _ => do
    let container ← eval f target
    let elem ← evalList f elem
    pure (.bool (← Exec.isMember container elem))
  | .size e _ => do
    let v ← eval f e
    Exec.sizeOf v
  | .error _ => Exec.mismatch .failedExpression

def evalList (f : FrameRef) : List Expr → Exec (List Value)
  | [] => pure []
  | e :: es => do
    let v ← eval f e
    let vs ← evalList f es
    pure (v :: vs)

def store (f : FrameRef) : Expr → Value → Exec Unit
  | .name id _, v => Exec.writeSlot f id.slot v
  | .index target is _, v => do
    let container ← eval f target
    let is ← evalList f is
    Exec.storeElement container is v
  | _, _ => Exec.mismatch .assignmentTarget

end

def addTo (f : FrameRef) : Expr → Exec Unit
  | .index target is _ => do
    let container ← eval f target
    let is ← evalList f is
    Exec.addElement container is
  | _ => Exec.mismatch .addStatement

def deleteFrom (f : FrameRef) : Expr → Exec Unit
  | .index target is _ => do
    let container ← eval f target
    let is ← evalList f is
    Exec.deleteElement container is
  | _ => Exec.mismatch .deleteStatement

end Vigil.Expr
