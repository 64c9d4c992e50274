import Vigil.World.Basic

/-!
# Vigil.World.Trigger — creating, registering and cancelling triggers

A new trigger is pending and holds what it needs to run. Registration queues
it for the next pass; it is refused, and the trigger cancelled, when its
session is closed or too many triggers wait. Closing a session cancels every
trigger it owns. Nothing here evaluates a condition or runs a body.
-/

namespace Vigil.World

def addTrigger (captured : Captured) (deadline : Option Instant) (isReturn : Bool) (span : Span)
    (w : World) : TriggerRef × World :=
  (⟨w.triggers.size⟩,
    { w with
      triggers := w.triggers.push
        ⟨some captured, deadline, (w.frame captured.frame).session, isReturn, span, .pending,
          none, captured⟩ })

/-- Drop everything a pending trigger holds without running any body. -/
def cancel (t : TriggerRef) (w : World) : World :=
  if (w.trigger t).state.isTerminal then w
  else w.modifyTrigger t fun tr => { tr with captured := none, state := .cancelled }

def isOpen (s : SessionId) (w : World) : Bool := w.openSessions.contains s

/-- Whether a new trigger of this session may wait. -/
def admits (session : Option SessionId) (w : World) : Bool :=
  (match session with
    | some s => w.isOpen s
    | none => true)
  && match w.limits.maxPending with
    | some max => w.pendingCount < max
    | none => true

/-- Queue a trigger for the next pass; says whether it was accepted. -/
def register (t : TriggerRef) (w : World) : Bool × World :=
  if w.admits (w.trigger t).session then
    (true, { w.modifyStats (fun s => { s with registered := s.registered + 1 }) with
      fresh := w.fresh ++ [t] })
  else
    (false, (w.cancel t).modifyStats fun s => { s with refused := s.refused + 1 })

def defer (f : FrameRef) (t : TriggerRef) (w : World) : World :=
  { w.modifyFrame f (fun fr => { fr with delayed := some t }) with
    journal := .defer f t :: w.journal }

/-- Create a trigger and register it; as `return when` it also takes over the
result of its frame, whether it is accepted or not. -/
def install (captured : Captured) (deadline : Option Instant) (isReturn : Bool) (span : Span)
    (w : World) : World :=
  let (t, w) := w.addTrigger captured deadline isReturn span
  ((if isReturn then w.defer captured.frame t else w).register t).2

/-- Forget the triggers that no longer wait. -/
def prune (w : World) : World :=
  let waits (t : TriggerRef) : Bool := !(w.trigger t).state.isTerminal
  { w with pending := w.pending.filter waits, fresh := w.fresh.filter waits }

/-! ## Sessions -/

def newSession (w : World) : SessionId × World :=
  (w.nextSession,
    { w with
      nextSession := w.nextSession + 1
      openSessions := w.nextSession :: w.openSessions })

/-- Cancel several triggers, counting every one of them. -/
def cancelEach (ts : List TriggerRef) (w : World) : World :=
  (ts.foldl (fun w t => w.cancel t) w).modifyStats fun s =>
    { s with cancelled := s.cancelled + ts.length }

def closeSession (s : SessionId) (w : World) : World :=
  if w.isOpen s then
    let owned := (w.pending ++ w.fresh).filter fun t => (w.trigger t).session == some s
    ({ w with openSessions := w.openSessions.filter (· != s) }.cancelEach owned).prune
  else w

def cancelAll (w : World) : World :=
  { w with pending := [], fresh := [] }.cancelEach (w.pending ++ w.fresh)

end Vigil.World
