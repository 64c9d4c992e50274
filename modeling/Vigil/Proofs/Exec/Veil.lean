import Vigil.Proofs.Exec.Simulates
import Vigil.Proofs.Trigger.Basic

/-!
# Vigil.Proofs.Exec.Veil — execution does not look at what triggers hold

A `when` puts its condition and its bodies into a trigger and leaves them
there. `Stmt.veil` takes them out of a statement, and `World.veiled` out of all
triggers of a world. Two statements that are the same under the veil, run in
two worlds that are the same under it, do the same (`Stmt.exec_veil`): whatever
a statement answers, and all that it changes, is settled without evaluating a
condition that is waited for and without running a body that waits.
-/

namespace Vigil

/-! ## The veil -/

namespace Stmt

mutual

/-- The statement with nothing left of what its `when`s wait for, and of what
runs after that. -/
def veil : Stmt → Stmt
  | .list i body => .list i (veilList body)
  | .bodyList i bodies => .bodyList i (veilList bodies)
  | .cond i test thenBody elseBody => .cond i test (veil thenBody) (veil elseBody)
  | .while i test body => .while i test (veil body)
  | .for i vars valueVar target body => .for i vars valueVar target (veil body)
  | .switch i selector cases dispatch => .switch i selector (veilCases cases) dispatch
  | .when i _ _ timeout _ isReturn =>
    .when i (.error ⟨.error, i.span⟩) (.null i) timeout none isReturn
  | s => s

def veilList : List Stmt → List Stmt
  | [] => []
  | s :: rest => veil s :: veilList rest

def veilCases : List Case → List Case
  | [] => []
  | .mk labels body span :: rest => .mk labels (veil body) span :: veilCases rest

end

theorem info_veil (s : Stmt) : s.veil.info = s.info := by
  cases s
  all_goals
    rw [veil]
    try rfl
  all_goals simp

theorem veilList_eq (ss : List Stmt) : veilList ss = ss.map veil := by
  induction ss with
  | nil => rw [veilList, List.map_nil]
  | cons s rest ih => rw [veilList, ih, List.map_cons]

theorem veilCases_eq (cases : List Case) :
    veilCases cases = cases.map fun c => .mk c.labels c.body.veil c.span := by
  induction cases with
  | nil => rw [veilCases, List.map_nil]
  | cons c rest ih =>
    obtain ⟨labels, body, span⟩ := c
    rw [veilCases, ih, List.map_cons]
    rfl

/-- Apart from its `when`s, the statement is the same with its parts veiled. -/
theorem veil_eq_mapParts {s : Stmt} (hwhen : s.tag ≠ .when) : s.veil = s.mapParts veil := by
  cases s with
  | list => rw [veil, veilList_eq, mapParts]
  | bodyList => rw [veil, veilList_eq, mapParts]
  | switch => rw [veil, veilCases_eq, mapParts]
  | «when» => contradiction
  | cond | «while» | «for» => rw [veil, mapParts]
  | _ =>
    rw [veil]
    · rfl
    all_goals simp

end Stmt

/-- The trigger without what it holds or was created with. -/
def Trigger.veiled (tr : Trigger) : Trigger := { tr with captured := none, origin := default }

namespace World

/-- The world with nothing told of what its triggers hold. -/
def veiled (w : World) : World := { w with triggers := w.triggers.map Trigger.veiled }

/-- Two worlds that are the same but for what their triggers hold. -/
def SameVeiled (w v : World) : Prop := w.veiled = v.veiled

variable {f : FrameRef} {w v : World}

/-- Apart from their triggers the two worlds are the same. -/
theorem SameVeiled.apart (h : SameVeiled w v) :
    ∃ trs, w = { v with triggers := trs } ∧
      trs.map Trigger.veiled = v.triggers.map Trigger.veiled := by
  refine ⟨w.triggers, ?_, congrArg triggers h⟩
  have hback : ∀ u : World, { u.veiled with triggers := w.triggers } =
      { u with triggers := w.triggers } := fun _ => rfl
  calc w = { w.veiled with triggers := w.triggers } := (hback w).symm
    _ = { v.veiled with triggers := w.triggers } := by rw [h]
    _ = { v with triggers := w.triggers } := hback v

theorem SameVeiled.sameStore (h : SameVeiled w v) : SameStore f w v := by
  obtain ⟨trs, rfl, -⟩ := h.apart
  exact ⟨rfl, rfl, .rfl⟩

/-- What can be read off under the veil is the same. -/
theorem SameVeiled.read {α : Type} (h : SameVeiled w v) {g : World → α}
    (hg : ∀ u : World, g u.veiled = g u) : g w = g v :=
  calc g w = g w.veiled := (hg w).symm
    _ = g v.veiled := congrArg g h
    _ = g v := hg v

/-- What can be done under the veil leaves the worlds alike. -/
theorem SameVeiled.change (h : SameVeiled w v) {g : World → World}
    (hg : ∀ u : World, (g u).veiled = g u.veiled) : SameVeiled (g w) (g v) :=
  calc (g w).veiled = g w.veiled := hg w
    _ = g v.veiled := congrArg g h
    _ = (g v).veiled := (hg v).symm

theorem sharesHeap_sameVeiled : Exec.SharesHeap SameVeiled := fun _ _ h => h.read fun _ => rfl

/-- Triggers for the same frame are installed alike, whatever they hold. -/
theorem SameVeiled.install (h : SameVeiled w v) {c c' : Captured} (hframe : c.frame = c'.frame)
    (deadline : Option Instant) (isReturn : Bool) (span : Span) :
    SameVeiled (w.install c deadline isReturn span) (v.install c' deadline isReturn span) := by
  obtain ⟨trs, rfl, hmap⟩ := h.apart
  obtain ⟨cond, body, timeoutBody, f⟩ := c
  obtain ⟨cond', body', timeoutBody', f'⟩ := c'
  cases hframe
  let w : World := { v with triggers := trs }
  have hsize : trs.size = v.triggers.size := by
    have hsizes := congrArg Array.size hmap
    rwa [Array.size_map, Array.size_map] at hsizes
  have hnext : w.nextTrigger = v.nextTrigger := congrArg TriggerRef.mk hsize
  have hlets : w.letsIn ⟨cond, body, timeoutBody, f⟩ =
      v.letsIn ⟨cond', body', timeoutBody', f⟩ := rfl
  have hnew : (w.installed ⟨cond, body, timeoutBody, f⟩ deadline isReturn span).veiled =
      (v.installed ⟨cond', body', timeoutBody', f⟩ deadline isReturn span).veiled := by
    unfold installed
    rw [hlets]
    rfl
  unfold SameVeiled veiled
  rw [install_eq, install_eq, hlets, hnext]
  dsimp only
  rw [Array.map_push, Array.map_push, hnew, hmap]

end World

/-! ## Execution -/

namespace Stmt

open Exec World

variable {f : FrameRef}

/-- What expressions and bindings do. -/
theorem simulates_of_local {α : Type} {x : Exec α} (hx : Local f x) :
    Simulates SameVeiled x x := by
  intro w v h
  obtain ⟨r, heap, slots, -, hx⟩ := hx w
  unfold leaves
  rw [hx w (.refl f w), hx v h.sameStore]
  exact ⟨rfl, congrArg (World.withStore f heap slots) h⟩

theorem alike_sameVeiled : Alike SameVeiled f where
  heap := sharesHeap_sameVeiled
  now _ _ h := h.read fun _ => rfl
  limits _ _ h := h.read fun _ => rfl
  store := simulates_of_local
  visit i := .modify fun _ _ h =>
    h.change (g := fun u => { u with journal := .start i.id u.now :: u.journal }) fun _ => rfl
  setNext _ := .modify fun _ _ h => h.change fun _ => rfl
  raise name args := .modify fun _ _ h =>
    h.change (g := fun u => { u with events := u.events.push ⟨name, args⟩ }) fun _ => rfl
  print line := .modify fun _ _ h =>
    h.change (g := fun u => { u with output := u.output.push line }) fun _ => rfl

theorem hasDelayed_veil : Simulates SameVeiled (hasDelayed f) (hasDelayed f) :=
  .look fun w v h => by
    rw [h.read (g := fun u => (u.frame f).delayed.isSome) fun _ => rfl]
    exact .pure _

/-- A statement does what is left of it under the veil. -/
theorem exec_veil_self (fuel : Nat) (f : FrameRef) (s : Stmt) :
    Simulates SameVeiled (exec fuel f s) (exec fuel f s.veil) := by
  have hid : ∀ s : Stmt, s.veil.id = s.id := fun s => congrArg StmtInfo.id (info_veil s)
  have hcongruence : Congruence (fun _ => True) veil fuel fuel f (Simulates SameVeiled) := by
    refine alike_sameVeiled.congruence (fun _ _ _ _ => trivial) info_veil
      (fun _ _ hwhen => veil_eq_mapParts hwhen) (fun i body _ hbody => ?_) fun s _ htag => ?_
    · rw [veil, veilList_eq, act, act]
      exact alike_sameVeiled.rules.execList hasDelayed_veil hid hbody
    · cases s with
      | «when» i test body timeout timeoutBody isReturn =>
        rw [veil, act, act]
        refine .bind (.bind (alike_sameVeiled.rules.deadline timeout) fun limit => ?_) fun _ =>
          .pure _
        exact .modify fun _ _ h => h.install (by rfl) limit isReturn i.span
      | _ => cases htag
  exact hcongruence.exec trivial

/-- What triggers hold, and what `when`s give them to hold, makes no difference
to an execution. -/
theorem exec_veil (fuel : Nat) (f : FrameRef) {s s' : Stmt} (hs : s.veil = s'.veil) :
    Simulates SameVeiled (exec fuel f s) (exec fuel f s') := by
  intro w v h
  obtain ⟨hanswer, hleaves⟩ := exec_veil_self fuel f s w w rfl
  obtain ⟨hanswer', hleaves'⟩ := exec_veil_self fuel f s' v w h.symm
  rw [hs] at hanswer hleaves
  exact ⟨hanswer.trans hanswer'.symm, hleaves.trans hleaves'.symm⟩

end Stmt

end Vigil
