import Vigil.Proofs.Exec.Keeps
import Vigil.Proofs.Trigger.Basic
import Mathlib.Logic.Relation

/-!
# Vigil.Proofs.Exec.Steps — what execution can do to the world

Everything a statement does to the world is a sequence of small steps of
seven kinds (`World.Step`): it changes the heap, the slots of its own frame or
the statement noted there, it enters the journal, it prints, it raises an
event, or it installs a trigger. `exec_moves` says so for every statement and
every ending, errors and aborts included. A fact about executions is then a
fact about one step, carried over the sequence.
-/

namespace Vigil

open Relation (ReflTransGen)

/-- A small change of the world by a statement that runs in the frame `f`. -/
inductive World.Step (f : FrameRef) : World → World → Prop where
  | heap (w : World) (h : Heap) : Step f w { w with heap := h }
  | slots (w : World) (g : Slots → Slots) :
      Step f w (w.modifyFrame f fun fr => { fr with slots := g fr.slots })
  | next (w : World) (s : StmtId) :
      Step f w (w.modifyFrame f fun fr => { fr with nextStmt := some s })
  | visit (w : World) (s : StmtId) : Step f w { w with journal := .start s w.now :: w.journal }
  | print (w : World) (line : String) : Step f w { w with output := w.output.push line }
  | raise (w : World) (e : Event) : Step f w { w with events := w.events.push e }
  | install (w : World) (c : Captured) (deadline : Option Instant) (isReturn : Bool)
      (span : Span) (hf : c.frame = f) : Step f w (w.install c deadline isReturn span)

namespace World

variable {f : FrameRef} {w w' : World}

/-- Entries are only added to the journal. -/
theorem Step.journal (h : Step f w w') : w.journal <:+ w'.journal := by
  cases h with
  | visit s => exact List.suffix_cons _ _
  | install c deadline isReturn span hf =>
    rw [install_eq]
    exact List.suffix_append _ _
  | _ => exact List.suffix_rfl

theorem Step.hasFrame (h : Step f w w') (g : FrameRef) : w'.HasFrame g ↔ w.HasFrame g := by
  cases h with
  | install c deadline isReturn span hf =>
    rw [install_eq]
    cases isReturn <;> simp [HasFrame]
  | slots g => simp
  | next s => simp
  | _ => exact .rfl

/-- A deferred result stays so. -/
theorem Step.delayed (h : Step f w w') {g : FrameRef} (hd : (w.frame g).delayed.isSome) :
    (w'.frame g).delayed.isSome := by
  cases h with
  | slots s =>
    rwa [frame_modifyFrame_field Frame.delayed (g := fun fr => { fr with slots := s fr.slots })
      fun _ => rfl]
  | next s =>
    rwa [frame_modifyFrame_field Frame.delayed (g := fun fr => { fr with nextStmt := some s })
      fun _ => rfl]
  | install c deadline isReturn span hf =>
    rw [frame_install]
    split
    · -- a `return when` sets a deferral and takes none back
      by_cases hg : g = c.frame
      · subst hg
        by_cases hc : w.HasFrame c.frame
        · rw [frame_modifyFrame_self hc]
          rfl
        · rwa [modifyFrame_of_not_hasFrame hc]
      · rwa [frame_modifyFrame_of_ne hg]
    · exact hd
  | _ => exact hd

end World

namespace Exec

variable {α β : Type} {f : FrameRef}

/-- Whatever `x` ends in, it changes the world by steps in the frame `f`. -/
def Moves (f : FrameRef) (x : Exec α) : Prop :=
  ∀ w, ReflTransGen (World.Step f) w (x.leaves w)

namespace Moves

theorem of_keeps {x : Exec α} (h : Keeps (ReflTransGen (World.Step f)) x) : Moves f x := h

theorem pure (a : α) : Moves f (pure a : Exec α) := .of_keeps (.pure a)

theorem setNext (s : StmtId) : Moves f (setNext f s) := fun w => .single (.next w s)

theorem visit (i : StmtInfo) : Moves f (visit i) := fun w => .single (.visit w i.id)

theorem bind {x : Exec α} {k : α → Exec β} (hx : Moves f x) (hk : ∀ a, Moves f (k a)) :
    Moves f (x >>= k) := .of_keeps (.bind hx hk)

theorem onFault {x : Exec α} {recover : Fault → Exec α} (hx : Moves f x)
    (hr : ∀ e, Moves f (recover e)) : Moves f (onFault x recover) := .of_keeps (.onFault hx hr)

theorem sequential : Sequential (Moves f) := Keeps.sequential

/-- The worlds before and after a run. -/
theorem steps {x : Exec α} (hx : Moves f x) {w w' : World} {r : Except Stop α}
    (h : x.runFrom w = (r, w')) : ReflTransGen (World.Step f) w w' := by
  have hm := hx w
  unfold Exec.leaves at hm
  rwa [h] at hm

/-- What expressions do. -/
theorem of_local {x : Exec α} (hx : Local f x) : Moves f x := by
  intro w
  obtain ⟨h, s, hleaves⟩ := hx.leaves_store w
  have hstep := ReflTransGen.single (World.Step.slots (f := f) w fun _ => s)
  rw [hleaves]
  exact hstep.tail (.heap _ h)

end Moves

end Exec

/-! ## Statements -/

namespace Stmt

open Exec

variable {f : FrameRef}

theorem deadline_moves (timeout : Option Expr) : Moves f (deadline f timeout) :=
  .of_keeps (deadline_keeps fun e _ => Moves.of_local (e.eval_local f))

theorem install_moves (c : Captured) (hf : c.frame = f) (timeout : Option Expr)
    (isReturn : Bool) (span : Span) : Moves f (install c timeout isReturn span) := by
  unfold install
  rw [hf]
  exact .bind (deadline_moves timeout) fun d => fun w => .single (.install w c d isReturn span hf)

theorem printLine_moves (vals : List Value) : Moves f (printLine vals) :=
  .bind (.of_local .heap) fun _ => .bind (.of_keeps (.ofStop _)) fun _ => fun w =>
    .single (.print w _)

theorem raise_moves (name : String) (args : List Value) : Moves f (raise name args) :=
  fun w => .single (.raise w ⟨name, args⟩)

theorem act_moves_of {fuel : Nat} {s : Stmt} (hparts : ∀ t ∈ s.parts, Moves f (exec fuel f t)) :
    Moves f (act fuel f s) := by
  have hdone : Moves f (pure Outcome.next) := .pure _
  refine Moves.sequential.act .setNext (fun e _ => .of_local (e.eval_local f))
    (fun _ _ _ => .of_local (.writeSlot _ _)) (fun r _ _ _ hw hb => ?_) (fun hown => ?_) hparts
  · exact Moves.sequential.overTable (fun _ _ => .of_local (.modifyTable _ _)) hw hb
  cases s with
  | print i args =>
    rw [act]
    exact .bind (.of_local (Expr.evalList_local f args)) fun _ =>
      .bind (printLine_moves _) fun _ => hdone
  | event i name args =>
    rw [act]
    exact .bind (.of_local (Expr.evalList_local f args)) fun _ =>
      .bind (raise_moves _ _) fun _ => hdone
  | add i target =>
    rw [act]
    exact .bind (.of_local (target.addTo_local f)) fun _ => hdone
  | delete i target =>
    rw [act]
    exact .bind (.of_local (target.deleteFrom_local f)) fun _ => hdone
  | init i idents =>
    rw [act]
    exact .bind (.of_local (giveFresh_local idents)) fun _ => hdone
  | «when» i test body timeout timeoutBody isReturn =>
    rw [act]
    exact .bind (install_moves ⟨test, body, timeoutBody, f⟩ rfl timeout isReturn _) fun _ => hdone
  | _ => simp [tag, ownWork] at hown

/-- A statement changes the world only by steps in its own frame. -/
theorem exec_moves (fuel : Nat) (f : FrameRef) (s : Stmt) : Moves f (exec fuel f s) := by
  induction s using tree_induction with
  | h s ih =>
    rw [exec_eq]
    exact .bind (.visit s.info) fun _ => act_moves_of fun t ht => ih t (s.parts_subset_children ht)

theorem act_moves (fuel : Nat) (f : FrameRef) (s : Stmt) : Moves f (act fuel f s) :=
  act_moves_of fun t _ => exec_moves fuel f t

theorem execEach_moves (fuel : Nat) (f : FrameRef) (ss : List Stmt) :
    Moves f (execEach fuel f ss) :=
  (Moves.sequential.diagonal.execEach (fun i => ⟨rfl, .setNext i⟩) (fun _ => rfl)
    fun s _ => ⟨rfl, exec_moves fuel f s⟩).2

theorem execCases_moves (fuel : Nat) (f : FrameRef) {bind : Exec Unit} (hbind : Moves f bind)
    (skip : Nat) (cases : List Case) (last : Outcome) :
    Moves f (execCases fuel f bind skip cases last) :=
  (Moves.sequential.diagonal.execCases (fun t => t) ⟨rfl, hbind⟩
    (fun c _ => ⟨rfl, exec_moves fuel f c.body⟩) skip last).2

end Stmt

/-! ## Triggers -/

namespace World

open Relation (ReflTransGen)

variable {f : FrameRef} {w w' : World} {t : TriggerRef}

/-- A step of a statement changes no trigger that is there. -/
theorem Step.trigger_eq (h : Step f w w') (ht : w.Created t) : w'.trigger t = w.trigger t := by
  cases h with
  | install c deadline isReturn span hf =>
    exact trigger_push_of_ne (by rw [install_eq]) (ne_nextTrigger ht)
  | _ => rfl

theorem Step.created (h : Step f w w') (ht : w.Created t) : w'.Created t := by
  cases h with
  | install c deadline isReturn span hf => exact created_push (by rw [install_eq]) ht
  | _ => exact ht

theorem created_of_steps (h : ReflTransGen (Step f) w w') (ht : w.Created t) : w'.Created t := by
  induction h with
  | refl => exact ht
  | tail _ hs ih => exact hs.created ih

theorem trigger_of_steps (h : ReflTransGen (Step f) w w') (ht : w.Created t) :
    w'.trigger t = w.trigger t := by
  induction h with
  | refl => rfl
  | tail hs' hs ih => rw [hs.trigger_eq (created_of_steps hs' ht), ih]

/-- Settling a trigger leaves it in its new state, and changes no other that
is there. -/
theorem trigger_settle (hcreated : w.Created t) {fuel : Nat} {state : TriggerState} {c : Captured}
    (hrun : (settle fuel t state c).runFrom w = (.ok (), w')) :
    (w'.trigger t).state = state ∧
      ∀ u, u ≠ t → w.Created u → w'.trigger u = w.trigger u := by
  have hself : ((w.leave t state).trigger t).state = state := by
    rw [World.leave, trigger_modifyTrigger_self hcreated]
  have hne : ∀ u, u ≠ t → (w.leave t state).trigger u = w.trigger u :=
    fun u hu => trigger_modifyTrigger_of_ne hu _
  obtain ⟨-, rfl⟩ | ⟨body, -, hrun⟩ := settle_apart hrun
  · exact ⟨hself, fun u hu _ => hne u hu⟩
  · obtain ⟨r, w₂, hx, -, hkept⟩ := runBody_apart hrun
    have hm := (Stmt.exec_moves fuel c.frame body).steps hx
    have hkeep : ∀ u, w.Created u → w₂.trigger u = (w.leave t state).trigger u := by
      intro u hu
      rw [trigger_of_steps hm (created_modifyTrigger.mpr hu)]
      rfl
    rcases hkept with rfl | ⟨v, rfl⟩
    · exact ⟨by rw [hkeep t hcreated]; exact hself, fun u hu hc => (hkeep u hc).trans (hne u hu)⟩
    · refine ⟨?_, fun u hu hc => ?_⟩
      · obtain ⟨r', hr⟩ := trigger_modifyTrigger_result w₂ t t v
        rw [hr, hkeep t hcreated]
        exact hself
      · rw [trigger_modifyTrigger_of_ne hu, hkeep u hc]
        exact hne u hu

end World

end Vigil
