import Vigil.Stmt.Exec

/-!
# Vigil.World.Schedule — running waiting triggers

A pending trigger fires when its condition holds and times out when its
deadline has passed. Either way it gives up all that it holds before a body
runs, so no body of a trigger ever runs twice.

* `checkAll` — a pass: every waiting trigger is looked at once, then those
  registered meanwhile, until there are none.
* `expire` — triggers whose deadline has come time out.
* `advance` — network time moves forward, with a pass and an expiry.

Errors of conditions and bodies end nothing here: a condition with an error
does not hold, and a body's error ends that body.
-/

namespace Vigil.World

/-! ## One trigger -/

/-- Run the body of a trigger, keeping its value for a deferred result. -/
def runBody (fuel : Nat) (t : TriggerRef) (frame : FrameRef) (body : Stmt) : Exec Unit := do
  let isReturn := ((← get).trigger t).isReturn
  Exec.onFault
    (do
      let out ← body.exec fuel frame
      if isReturn then modify (modifyTrigger t fun tr => { tr with result := out.value }))
    fun _ => pure ()

/-- Leave the pending state and run the body that goes with the new one. -/
def settle (fuel : Nat) (t : TriggerRef) (state : TriggerState) (c : Captured) : Exec Unit := do
  modify (modifyTrigger t fun tr => { tr with captured := none, state := state })
  match c.bodyFor state with
  | none => pure ()
  | some body =>
    Exec.note (.body t state body)
    runBody fuel t c.frame body

/-- Whether a condition holds; one that fails does not. -/
def holds (c : Captured) : Exec Bool :=
  Exec.onFault
    (do
      let v ← c.cond.eval c.frame
      pure !v.isZero)
    fun _ => pure false

/-- Look at a trigger once; it fires if its condition holds. -/
def check (fuel : Nat) (t : TriggerRef) : Exec TriggerState := do
  let tr := (← get).trigger t
  match tr.state, tr.captured with
  | .pending, some c =>
    let held ← holds c
    Exec.note (.look t held)
    if held then settle fuel t .fired c
    pure ((← get).trigger t).state
  | state, _ => pure state

/-- The deadline passed without the condition holding. -/
def timeOut (fuel : Nat) (t : TriggerRef) : Exec Unit := do
  let tr := (← get).trigger t
  match tr.state, tr.captured with
  | .pending, some c => settle fuel t .timedOut c
  | _, _ => pure ()

/-! ## Passes -/

/-- Look at each trigger of a batch, counting those found fired. -/
def checkEach (fuel : Nat) : List TriggerRef → Exec Unit
  | [] => pure ()
  | t :: rest => do
    if (← check fuel t) = .fired then
      modify (modifyStats fun s => { s with fired := s.fired + 1 })
    checkEach fuel rest

/-- Cancel a trigger that still waits for a session closed meanwhile. -/
def cancelOrphan (w : World) (t : TriggerRef) : World :=
  match (w.trigger t).session with
  | some s =>
    if !(w.trigger t).state.isTerminal && !w.isOpen s then
      (w.cancel t).modifyStats fun st => { st with cancelled := st.cancelled + 1 }
    else w
  | none => w

/-- Put those of a batch that still wait back among the pending ones. -/
def keepWaiting (batch : List TriggerRef) (w : World) : World :=
  { w with pending := w.pending ++ batch.filter fun t => !(w.trigger t).state.isTerminal }

/-- Batches of a pass: what is registered during one batch is the next. -/
def checkBatches (fuel : Nat) : (rounds : Nat) → List TriggerRef → Exec Unit
  | _, [] => pure ()
  | 0, _ :: _ => throw .exhausted
  | rounds + 1, t :: rest => do
    checkEach fuel (t :: rest)
    modify fun w => keepWaiting (t :: rest) ((t :: rest).foldl cancelOrphan w)
    let fresh := (← get).fresh
    modify fun w => { w with fresh := [] }
    checkBatches fuel rounds fresh

/-- Look at every waiting trigger, and at those registered while doing so. -/
def checkAll (fuel : Nat) : Exec Unit := do
  let w ← get
  set { w with pending := [], fresh := [] }
  checkBatches fuel fuel (w.pending ++ w.fresh)

/-! ## Time -/

def isExpired (w : World) (now : Instant) (t : TriggerRef) : Bool :=
  match (w.trigger t).deadline with
  | some d => d.order now != .gt
  | none => false

def timeOutEach (fuel : Nat) : List TriggerRef → Exec Unit
  | [] => pure ()
  | t :: rest => do
    timeOut fuel t
    timeOutEach fuel rest

/-- Time out the triggers whose deadline has come. Registrations not yet
looked at are left alone. -/
def expire (fuel : Nat) (now : Instant) : Exec Unit := do
  let w ← get
  let expired := w.pending.filter (w.isExpired now)
  set { w with pending := w.pending.filter fun t => !w.isExpired now t }
  timeOutEach fuel expired
  modify fun w =>
    (w.modifyStats fun s => { s with timedOut := s.timedOut + expired.length }).prune

/-- Move network time forward; it never moves backward. -/
def advance (fuel : Nat) (time : Instant) : Exec Unit := do
  let w ← get
  if time.order w.now = .lt then pure ()
  else
    set { w with now := time }
    checkAll fuel
    expire fuel time

end Vigil.World
