import Vigil.Flow
import Vigil.Heap
import Vigil.Stmt.Basic

/-!
# Vigil.World.Basic — the state of a running engine

One value holds everything that running statements can see or change: network
time, the collections, the frames that bind variables, the triggers waiting
for conditions, what was printed and which events were raised, and the
journal of what was executed.

Evaluation is a state transformer that may stop early (`Exec`). The state at
the stop is kept: what happened before an error or an abort stays in effect.
-/

namespace Vigil

structure FrameRef where
  idx : Nat
deriving DecidableEq, Repr, Inhabited

structure TriggerRef where
  idx : Nat
deriving DecidableEq, Repr, Inhabited

/-- Number of a session: a context that frames and their triggers belong to. -/
abbrev SessionId := Nat

def sessionName (s : SessionId) : String := "session#" ++ Digits.padded 1 s

structure Frame where
  slots : Slots
  session : Option SessionId
  /-- The statement recorded as about to execute. -/
  nextStmt : Option StmtId
  /-- The trigger that will produce the frame's deferred result. -/
  delayed : Option TriggerRef
deriving Repr, Inhabited

/-! ## Triggers -/

inductive TriggerState where
  | pending
  | fired
  | timedOut
  | cancelled
deriving DecidableEq, Repr

namespace TriggerState

def isTerminal : TriggerState → Bool
  | .pending => false
  | _ => true

def name : TriggerState → String
  | .pending => "Pending"
  | .fired => "Fired"
  | .timedOut => "TimedOut"
  | .cancelled => "Cancelled"

end TriggerState

structure Captured where
  cond : Expr
  body : Stmt
  timeoutBody : Option Stmt
  frame : FrameRef

instance : Inhabited Captured :=
  ⟨⟨.error ⟨.error, .unknown⟩, .null ⟨0, .unknown⟩, none, ⟨0⟩⟩⟩

/-- The body that runs when a trigger enters a state, if there is one. -/
def Captured.bodyFor (c : Captured) : TriggerState → Option Stmt
  | .fired => some c.body
  | .timedOut => c.timeoutBody
  | .pending | .cancelled => none

/-- A condition that is waited for. -/
structure Trigger where
  /-- Held only while pending. -/
  captured : Option Captured
  deadline : Option Instant
  session : Option SessionId
  isReturn : Bool
  span : Span
  state : TriggerState
  /-- Value produced by the body of a `return when`. -/
  result : Option Value
  /-- What it was created with, told also when it is not held any more. -/
  origin : Captured

instance : Inhabited Trigger := ⟨⟨none, none, none, false, .unknown, .cancelled, none, default⟩⟩

structure TriggerStats where
  registered : Nat
  fired : Nat
  timedOut : Nat
  cancelled : Nat
  refused : Nat
deriving DecidableEq, Repr, Inhabited

/-! ## The world -/

structure Event where
  name : String
  args : List Value
deriving DecidableEq, Repr

def Event.text (h : Heap) (e : Event) : Except Stop String := do
  let args ← e.args.mapM h.text
  pure (e.name ++ "(" ++ ", ".intercalate args ++ ")")

/-- Bounds on what scripts may do; `none` is no bound. -/
structure Limits where
  maxLoopRounds : Option Nat
  maxPending : Option Nat
deriving DecidableEq, Repr, Inhabited

inductive Entry where
  | start (stmt : StmtId) (time : Instant)
  /-- The condition of a waiting trigger was looked at, and held or not. -/
  | look (trigger : TriggerRef) (held : Bool)
  /-- A trigger entered a final state and started this body. -/
  | body (trigger : TriggerRef) (state : TriggerState) (stmt : Stmt)
  /-- The result of a frame was left to a trigger. -/
  | defer (frame : FrameRef) (trigger : TriggerRef)

def Entry.startOf? (s : StmtId) : Entry → Option Instant
  | .start stmt time => if stmt = s then some time else none
  | .look .. | .body .. | .defer .. => none

/-- What happened, the latest first. -/
abbrev Journal := List Entry

namespace Journal

def count (j : Journal) (s : StmtId) : Nat := j.countP fun e => (e.startOf? s).isSome

def last? (j : Journal) (s : StmtId) : Option Instant := j.findSome? (·.startOf? s)

end Journal

structure World where
  now : Instant
  limits : Limits
  heap : Heap
  frames : Array Frame
  triggers : Array Trigger
  /-- Triggers waiting since an earlier pass, in order of registration. -/
  pending : List TriggerRef
  /-- Triggers registered since the last pass. -/
  fresh : List TriggerRef
  openSessions : List SessionId
  nextSession : SessionId
  stats : TriggerStats
  output : Array String
  events : Array Event
  journal : Journal

namespace World

def start (now : Instant) (limits : Limits) : World where
  now := now
  limits := limits
  heap := .empty
  frames := #[]
  triggers := #[]
  pending := []
  fresh := []
  openSessions := []
  nextSession := 1
  stats := default
  output := #[]
  events := #[]
  journal := []

def frame (w : World) (r : FrameRef) : Frame := (w.frames[r.idx]?).getD default

def trigger (w : World) (r : TriggerRef) : Trigger := (w.triggers[r.idx]?).getD default

def modifyFrame (r : FrameRef) (g : Frame → Frame) (w : World) : World :=
  { w with frames := w.frames.modify r.idx g }

def modifyTrigger (r : TriggerRef) (g : Trigger → Trigger) (w : World) : World :=
  { w with triggers := w.triggers.modify r.idx g }

def modifyStats (g : TriggerStats → TriggerStats) (w : World) : World :=
  { w with stats := g w.stats }

def addFrame (size : Nat) (session : Option SessionId) (w : World) : FrameRef × World :=
  (⟨w.frames.size⟩,
    { w with frames := w.frames.push ⟨Array.replicate size none, session, none, none⟩ })

/-- Triggers that wait, those not yet looked at included. -/
def pendingCount (w : World) : Nat := w.pending.length + w.fresh.length

end World

/-! ## Evaluation -/

abbrev Exec (α : Type) := ExceptT Stop (StateM World) α

namespace Exec

def fault {α : Type} (f : Fault) : Exec α := throw (.fault f)

def abort {α : Type} (a : Abort) : Exec α := throw (.abort a)

def mismatch {α : Type} (m : Mismatch) : Exec α := fault (.typeMismatch m)

def ofStop {α : Type} : Except Stop α → Exec α
  | .ok a => pure a
  | .error s => throw s

def ofFault {α : Type} : Except Fault α → Exec α
  | .ok a => pure a
  | .error f => fault f

def ofAbort {α : Type} : Except Abort α → Exec α
  | .ok a => pure a
  | .error a => abort a

/-- Run `recover` when `x` ends with an error of the script, keeping all that
`x` did; aborts go on. -/
def onFault {α : Type} (x : Exec α) (recover : Fault → Exec α) : Exec α :=
  tryCatch x fun
    | .fault f => recover f
    | s => throw s

def heap : Exec Heap := do pure (← get).heap

def setHeap (h : Heap) : Exec Unit := modify fun w => { w with heap := h }

/-! ## Slots -/

def readSlot (f : FrameRef) (slot : Nat) (name : String) : Exec Value := do
  match ((← get).frame f).slots.get slot with
  | some v => pure v
  | none => fault (.unbound name)

def writeSlot (f : FrameRef) (slot : Nat) (v : Value) : Exec Unit := do
  let slots ← ofAbort (((← get).frame f).slots.set slot v)
  modify (World.modifyFrame f fun fr => { fr with slots := slots })

def clearSlot (f : FrameRef) (slot : Nat) : Exec Unit :=
  modify (World.modifyFrame f fun fr => { fr with slots := fr.slots.clear slot })

def setNext (f : FrameRef) (s : StmtId) : Exec Unit :=
  modify (World.modifyFrame f fun fr => { fr with nextStmt := some s })

def hasDelayed (f : FrameRef) : Exec Bool := do
  pure ((← get).frame f).delayed.isSome

def note (e : Entry) : Exec Unit := modify fun w => { w with journal := e :: w.journal }

def visit (i : StmtInfo) : Exec Unit :=
  modify fun w => { w with journal := .start i.id w.now :: w.journal }

end Exec

end Vigil
