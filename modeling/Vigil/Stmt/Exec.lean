import Vigil.Expr.Eval
import Vigil.Stmt.Dispatch
import Vigil.World.Trigger

/-!
# Vigil.Stmt.Exec — executing statements

Every executed statement enters the journal and yields an `Outcome`: the
value of a `return`, if there is one, and how control continues.

* A list stops at the first child that reports anything but `next`, yields a
  value, or defers the frame's result.
* Loops use up `loop` and `break`; `return` passes through everything.
* A switch runs the selected arm and those after it, until one breaks or
  returns.
* A `when` only registers a trigger.

Execution recurses on the statement. Only `while` loops and loops over
vectors, which may grow under way, can go on without bound; each of them gets
`fuel` rounds and ends as `exhausted` when they do not suffice.
-/

namespace Vigil

structure Outcome where
  value : Option Value
  flow : Flow
deriving DecidableEq, Repr

namespace Outcome

def next : Outcome := ⟨none, .next⟩

def ofFlow (flow : Flow) : Outcome := ⟨none, flow⟩

def afterLoop (o : Outcome) : Outcome := { o with flow := o.flow.afterLoop }

def afterSwitch (o : Outcome) : Outcome := { o with flow := o.flow.afterSwitch }

end Outcome

namespace Stmt

/-! ## Loops -/

/-- Rounds of a `while` loop. The limit is only looked at when another round
is due. -/
def whileRounds (limit : Option Nat) (test : Exec Value) (body : Exec Outcome) :
    (fuel rounds : Nat) → Outcome → Exec Outcome
  | 0, _, _ => throw .exhausted
  | fuel + 1, rounds, last => do
    let v ← test
    if v.isZero then pure last
    else
      match limit with
      | some max =>
        if max ≤ rounds then Exec.fault (.iterationLimit max)
        else
          let out ← body
          if out.flow.stops then pure out
          else whileRounds limit test body fuel (rounds + 1) out
      | none =>
        let out ← body
        if out.flow.stops then pure out
        else whileRounds limit test body fuel (rounds + 1) out

/-- Bind the value and the index of an entry; the value comes first, so an
index component of the same name wins. -/
def bindEntry (f : FrameRef) (vars : List Ident) (valueVar : Option Ident) (index : List Value)
    (v : Option Value) : Exec Unit := do
  match valueVar, v with
  | some var, some v => Exec.writeSlot f var.slot v
  | _, _ => pure ()
  (vars.zip index).forM fun (var, v) => Exec.writeSlot f var.slot v

/-- Rounds of a loop over a table, one for each of the keys that is still
present when its turn comes. However the loop ends, short of an abort, the
iteration is given back. -/
def tableRounds (r : TableRef) (bind : List Value → Option Value → Exec Unit)
    (body : Exec Outcome) : List Key → Outcome → Exec Outcome
  | [], last => do
    Exec.modifyTable r Table.leave
    pure last
  | k :: rest, last => do
    let t := (← Exec.heap).table r
    match Table.find? k t.entries with
    | none => tableRounds r bind body rest last
    | some v =>
      let index ← Exec.ofAbort (t.indexOf k)
      bind index v
      let out ← Exec.onFault body fun e => do
        Exec.modifyTable r Table.leave
        Exec.fault e
      if out.flow.stops then
        Exec.modifyTable r Table.leave
        pure out
      else tableRounds r bind body rest out

/-- Rounds of a loop over the filled positions of a vector. The size is
looked at anew each time, and the position just past the end is looked at
too. -/
def vectorRounds (r : VecRef) (bind : Value → Exec Unit) (body : Exec Outcome) :
    (fuel i : Nat) → Outcome → Exec Outcome
  | 0, _, _ => throw .exhausted
  | fuel + 1, i, last => do
    let v := (← Exec.heap).vec r
    if v.size < i then pure last
    else if (v.lookup i).isNone then vectorRounds r bind body fuel (i + 1) last
    else
      bind (.count (.ofNat i))
      let out ← body
      if out.flow.stops then pure out
      else vectorRounds r bind body fuel (i + 1) out

def stringRounds (bind : Value → Exec Unit) (body : Exec Outcome) :
    Bytes → Outcome → Exec Outcome
  | [], last => pure last
  | b :: rest, _ => do
    bind (.str [b])
    let out ← body
    if out.flow.stops then pure out else stringRounds bind body rest out

/-- The one variable of a loop over a sequence. -/
def singleVar : List Ident → Exec Ident
  | [var] => pure var
  | vars => Exec.abort (.broken (.loopArity vars.length))

def forRounds (fuel : Nat) (f : FrameRef) (vars : List Ident) (valueVar : Option Ident)
    (target : Value) (body : Exec Outcome) : Exec Outcome := do
  match target with
  | .table r =>
    let keys := ((← Exec.heap).table r).keys
    Exec.modifyTable r Table.enter
    tableRounds r (bindEntry f vars valueVar) body keys .next
  | .vector r =>
    let var ← singleVar vars
    vectorRounds r (fun v => Exec.writeSlot f var.slot (v.coerce var.ty)) body fuel 0 .next
  | .str s =>
    let var ← singleVar vars
    stringRounds (Exec.writeSlot f var.slot) body s .next
  | v => Exec.fault (.notIterable (← Exec.typeOf v))

/-! ## Other parts -/

/-- Bind the value of a switch to the identifier of the selected label. -/
def bindCase (f : FrameRef) (v : Value) : Option Ident → Exec Unit
  | none => pure ()
  | some id => do
    let h ← Exec.heap
    match h.view? v id.ty with
    | some v => Exec.writeSlot f id.slot v
    | none => Exec.abort (.broken (.caseBinding (h.typeOf v) id.ty))

def giveFresh (f : FrameRef) : List Ident → Exec Unit
  | [] => pure ()
  | id :: rest => do
    match (← Exec.heap).fresh? id.ty with
    | some (v, h) =>
      Exec.setHeap h
      Exec.writeSlot f id.slot v
    | none => Exec.clearSlot f id.slot
    giveFresh f rest

/-- When a `when` gives up. A timeout that fails, or is neither a time nor an
interval, is none. -/
def deadline (f : FrameRef) : Option Expr → Exec (Option Instant)
  | none => pure none
  | some e => do
    let v ← Exec.onFault (some <$> e.eval f) fun _ => pure none
    match v with
    | some (.interval d) =>
      match (← get).now.shift? d with
      | some t => pure (some t)
      | none => Exec.abort .timeRange
    | some (.time t) => pure (some t)
    | _ => pure none

/-- Wait for a condition: a new trigger holds all that is needed. -/
def install (captured : Captured) (timeout : Option Expr) (isReturn : Bool) (span : Span) :
    Exec Unit := do
  let limit ← deadline captured.frame timeout
  modify (World.install captured limit isReturn span)

def printLine (vals : List Value) : Exec Unit := do
  let h ← Exec.heap
  let parts ← Exec.ofStop (vals.mapM h.text)
  modify fun w => { w with output := w.output.push (", ".intercalate parts) }

def raise (name : String) (args : List Value) : Exec Unit :=
  modify fun w => { w with events := w.events.push ⟨name, args⟩ }

/-! ## Execution -/

mutual

def exec (fuel : Nat) (f : FrameRef) : Stmt → Exec Outcome
  | .list i body => do
    Exec.visit i
    execList fuel f body
  | .bodyList i bodies => do
    Exec.visit i
    execEach fuel f bodies
    pure .next
  | .expr i e => do
    Exec.visit i
    let _ ← e.eval f
    pure .next
  | .print i args => do
    Exec.visit i
    let vals ← Expr.evalList f args
    printLine vals
    pure .next
  | .event i name args => do
    Exec.visit i
    let vals ← Expr.evalList f args
    raise name vals
    pure .next
  | .cond i test thenBody elseBody => do
    Exec.visit i
    let v ← test.eval f
    if v.isZero then
      Exec.setNext f elseBody.id
      exec fuel f elseBody
    else
      Exec.setNext f thenBody.id
      exec fuel f thenBody
  | .while i test body => do
    Exec.visit i
    let limit := (← get).limits.maxLoopRounds
    let out ← whileRounds limit (test.eval f) (exec fuel f body) fuel 0 .next
    pure out.afterLoop
  | .for i vars valueVar target body => do
    Exec.visit i
    let v ← target.eval f
    let out ← forRounds fuel f vars valueVar v (exec fuel f body)
    pure out.afterLoop
  | .switch i selector cases dispatch => do
    Exec.visit i
    let v ← selector.eval f
    let (arm, binding) ← Exec.ofAbort (dispatch.find (← Exec.heap) selector.ty v)
    match arm with
    | none => pure .next
    | some arm =>
      let out ← execCases fuel f (bindCase f v binding) arm cases .next
      pure out.afterSwitch
  | .add i target => do
    Exec.visit i
    target.addTo f
    pure .next
  | .delete i target => do
    Exec.visit i
    target.deleteFrom f
    pure .next
  | .next i => do
    Exec.visit i
    pure (.ofFlow .loop)
  | .break i => do
    Exec.visit i
    pure (.ofFlow .break)
  | .fallthrough i => do
    Exec.visit i
    pure (.ofFlow .fallthrough)
  | .return i (some e) => do
    Exec.visit i
    let v ← e.eval f
    pure ⟨some v, .return⟩
  | .return i none => do
    Exec.visit i
    pure (.ofFlow .return)
  | .init i idents => do
    Exec.visit i
    giveFresh f idents
    pure .next
  | .null i => do
    Exec.visit i
    pure .next
  | .when i test body timeout timeoutBody isReturn => do
    Exec.visit i
    install ⟨test, body, timeoutBody, f⟩ timeout isReturn i.span
    pure .next

/-- Children of a list, up to the first that ends it. -/
def execList (fuel : Nat) (f : FrameRef) : List Stmt → Exec Outcome
  | [] => pure .next
  | s :: rest => do
    Exec.setNext f s.id
    let out ← exec fuel f s
    if out.flow ≠ .next || out.value.isSome || (← Exec.hasDelayed f) then pure out
    else execList fuel f rest

/-- Handler bodies, each whatever the others did. -/
def execEach (fuel : Nat) (f : FrameRef) : List Stmt → Exec Unit
  | [] => pure ()
  | s :: rest => do
    Exec.setNext f s.id
    let _ ← Exec.onFault (exec fuel f s) fun _ => pure .next
    execEach fuel f rest

/-- Arms of a switch, after the first `skip`. -/
def execCases (fuel : Nat) (f : FrameRef) (bind : Exec Unit) :
    (skip : Nat) → List Case → Outcome → Exec Outcome
  | _, [], last => pure last
  | skip + 1, _ :: rest, last => execCases fuel f bind skip rest last
  | 0, .mk _ body _ :: rest, _ => do
    bind
    let out ← exec fuel f body
    if out.flow.stops then pure out else execCases fuel f bind 0 rest out

end

end Stmt

end Vigil
