import Vigil.Heap

/-!
# Vigil.Expr.Arith — operators on values

* Integers wrap: two counts give a count, any other pair an int, the counts
  among them reinterpreted as signed words. Division truncates.
* A double takes part with any number and makes the result a double.
* Times and intervals add and subtract; an interval is scaled by a number
  through its length in seconds.
* Comparisons need operands that can be ordered.
-/

namespace Vigil

def UnaryOp.apply (h : Heap) (op : UnaryOp) (v : Value) : Except Stop Value :=
  match op, v with
  | .not, v => pure (.bool v.isZero)
  | .negate, .int i => pure (.int (-i))
  | .negate, .count c => pure (.int (-c.toInt64))
  | .negate, .double d => pure (.double d.neg)
  | .negate, .interval d => pure (.interval d.neg)
  | .positive, .count c => pure (.int c.toInt64)
  | .positive, .int i => pure (.int i)
  | .positive, .double d => pure (.double d)
  | .positive, .interval d => pure (.interval d)
  | op, v => throw (.fault (.typeMismatch (.unaryOperand op (h.typeOf v))))

namespace BinaryOp

def order? (a b : Value) : Option Ordering :=
  match a, b with
  | .count x, .count y => some (compare x y)
  | .double _, _ | _, .double _ => do
    let x ← a.double?
    let y ← b.double?
    x.compare? y
  | .str x, .str y => some (Key.order x y)
  | .time x, .time y => some (x.order y)
  | .interval x, .interval y => some (compare x.nanos y.nanos)
  | .bool x, .bool y => some (compare x y)
  | _, _ => do
    let x ← a.int?
    let y ← b.int?
    pure (compare x y)

/-- Arithmetic on two counts; `none` for other operators. -/
def onCounts (op : BinaryOp) (x y : UInt64) : Option (Except Fault UInt64) :=
  match op with
  | .add => some (pure (x + y))
  | .sub => some (pure (x - y))
  | .mul => some (pure (x * y))
  | .div => some (if y = 0 then throw .divisionByZero else pure (x / y))
  | .mod => some (if y = 0 then throw .divisionByZero else pure (x % y))
  | _ => none

def onInts (op : BinaryOp) (x y : Int64) : Option (Except Fault Int64) :=
  match op with
  | .add => some (pure (x + y))
  | .sub => some (pure (x - y))
  | .mul => some (pure (x * y))
  | .div => some (if y = 0 then throw .divisionByZero else pure (x / y))
  | .mod => some (if y = 0 then throw .divisionByZero else pure (x % y))
  | _ => none

def onDoubles (op : BinaryOp) (x y : Double) : Option (Except Fault Double) :=
  match op with
  | .add => some (pure (x.add y))
  | .sub => some (pure (x.sub y))
  | .mul => some (pure (x.mul y))
  | .div => some (if y.isZero then throw .divisionByZero else pure (x.div y))
  | _ => none

/-- A result that may have left the range of times. -/
def inRange {α : Type} (f : α → Value) : Option α → Except Stop Value
  | some x => pure (f x)
  | none => throw (.abort .timeRange)

/-- A result of arithmetic, or the error for operands it does not take. -/
def settle {α : Type} (mismatch : Fault) (f : α → Value) :
    Option (Except Fault α) → Except Stop Value
  | some (.ok x) => pure (f x)
  | some (.error e) => throw (.fault e)
  | none => throw (.fault mismatch)

/-- Scaling an interval: a product with a number on either side, or a
quotient by a number on the right. -/
def onScaled (op : BinaryOp) (intervalFirst : Bool) (d : Interval) (k : Double) :
    Option (Except Fault Interval) :=
  match op with
  | .mul => some (pure (Interval.ofSeconds (d.toSeconds.mul k)))
  | .div =>
    if intervalFirst then
      some (if k.isZero then throw .divisionByZero
        else pure (Interval.ofSeconds (d.toSeconds.div k)))
    else none
  | _ => none

def apply (h : Heap) (op : BinaryOp) (a b : Value) : Except Stop Value :=
  let mismatch : Fault := .typeMismatch (.operands (h.typeOf a) op (h.typeOf b))
  if op.isComparison then
    match order? a b with
    | some o => pure (.bool (op.holds o))
    | none => throw (.fault (.typeMismatch .unordered))
  else
    match a, b with
    | .count x, .count y => settle mismatch .count (op.onCounts x y)
    | .time t, .interval d =>
      match op with
      | .add => inRange .time (t.shift? d)
      | .sub => inRange .time (t.shift? d.neg)
      | _ => throw (.fault mismatch)
    | .interval d, .time t =>
      match op with
      | .add => inRange .time (t.shift? d)
      | _ => throw (.fault mismatch)
    | .time s, .time t =>
      match op with
      | .sub => inRange .interval (s.since? t)
      | _ => throw (.fault mismatch)
    | .interval x, .interval y =>
      match op with
      | .add => inRange .interval (x.add? y)
      | .sub => inRange .interval (x.sub? y)
      | .div =>
        if y.isZero then throw (.fault .divisionByZero)
        else pure (.double (x.toSeconds.div y.toSeconds))
      | _ => throw (.fault mismatch)
    | .interval d, n =>
      match n.double? with
      | some k => settle mismatch .interval (op.onScaled true d k)
      | none => throw (.fault mismatch)
    | n, .interval d =>
      match n.double? with
      | some k => settle mismatch .interval (op.onScaled false d k)
      | none => throw (.fault mismatch)
    | .double _, _ | _, .double _ =>
      match a.double?, b.double? with
      | some x, some y => settle mismatch .double (op.onDoubles x y)
      | _, _ => throw (.fault mismatch)
    | _, _ =>
      match a.int?, b.int? with
      | some x, some y => settle mismatch .int (op.onInts x y)
      | _, _ => throw (.fault mismatch)

end BinaryOp

end Vigil
