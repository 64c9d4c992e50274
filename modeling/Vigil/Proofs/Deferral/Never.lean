import Vigil.Proofs.Deferral.Cut
import Vigil.Proofs.Exec.Slots

/-!
# Vigil.Proofs.Deferral.Never — frames whose results are never deferred

Only a `return when` that is executed in a frame defers the result of that frame.
A statement without one (`Stmt.ReturnFree`) leaves a frame with a result of its own
as such, and so does any statement that runs in another frame. Hence a frame of a
unit without one has its own result at all times, also while an operation is
performed (`Script.Occupies.undeferred`).
-/

namespace Vigil

open Exec (Keeps Local)
open Relation (ReflTransGen)
open World (Undeferred)

namespace Stmt

/-- A `when` to which the result is left. -/
def isReturnWhen : Stmt → Bool
  | .when _ _ _ _ _ isReturn => isReturn
  | _ => false

/-- There is no `return when` at or below the statement. -/
def ReturnFree (s : Stmt) : Prop := ∀ t ∈ s.preorder, t.isReturnWhen = false

instance (s : Stmt) : Decidable s.ReturnFree := inferInstanceAs (Decidable (∀ t ∈ s.preorder, _))

variable {s t : Stmt}

theorem ReturnFree.below (h : s.ReturnFree) (ht : t ∈ s.preorder) : t.ReturnFree :=
  fun _ hu => h _ (preorder_subset ht hu)

theorem ReturnFree.child (h : s.ReturnFree) (ht : t ∈ s.children) : t.ReturnFree :=
  h.below (children_subset s.self_mem_preorder ht)

/-- A statement that defers the result has a `return when`. -/
theorem ReturnFree.defers (h : s.ReturnFree) : s.defers = false := by
  induction s using tree_induction with
  | h s ih =>
    have hbelow : ∀ c ∈ s.children, c.defers = false := fun c hc => ih c hc (h.child hc)
    cases s with
    | list i body | bodyList i body =>
      rw [Stmt.defers]
      exact defersList_eq_false_iff.mpr hbelow
    | cond i test thenBody elseBody =>
      rw [Stmt.defers, hbelow thenBody (by simp [children]), hbelow elseBody (by simp [children])]
      rfl
    | «while» i test body =>
      rw [Stmt.defers]
      exact hbelow body (List.mem_singleton_self _)
    | «for» i vars valueVar target body =>
      rw [Stmt.defers]
      exact hbelow body (List.mem_singleton_self _)
    | switch i selector cases dispatch =>
      rw [Stmt.defers]
      exact defersCases_eq_false_iff.mpr fun c hc => hbelow _ (List.mem_map_of_mem hc)
    | «when» i test body timeout timeoutBody isReturn =>
      rw [Stmt.defers]
      exact h _ (self_mem_preorder _)
    | _ => rfl

end Stmt

/-! ## Executions -/

/-- A frame with a result of its own still has it afterwards. -/
abbrev World.StaysUndeferred (f : FrameRef) : World → World → Prop := Preserves (Undeferred f)

section

open World (StaysUndeferred)

variable {f g : FrameRef} {fuel : Nat} {w w' : World}

theorem World.Undeferred.modifyFrame (hw : Undeferred f w) {k : Frame → Frame}
    (hk : ∀ fr, (k fr).delayed = fr.delayed) : Undeferred f (w.modifyFrame g k) :=
  ⟨hasFrame_modifyFrame.mpr hw.hasFrame,
    (frame_modifyFrame_field Frame.delayed hk w g f).trans hw.delayed⟩

theorem Exec.setNext_staysUndeferred (s : StmtId) : Keeps (StaysUndeferred f) (setNext g s) :=
  fun _ hw => hw.modifyFrame fun _ => rfl

theorem Exec.Local.staysUndeferred {α : Type} {x : Exec α} (hx : Local g x) :
    Keeps (StaysUndeferred f) x := by
  intro w hw
  obtain ⟨heap, slots, hleaves⟩ := hx.leaves_store w
  rw [hleaves]
  have hslots := hw.modifyFrame (g := g) (k := fun fr => { fr with slots := slots }) fun _ => rfl
  exact ⟨hslots.hasFrame, hslots.delayed⟩

theorem Stmt.exec_staysUndeferred {s : Stmt} (hs : s.defers = false) :
    Keeps (StaysUndeferred f) (s.exec fuel f) := by
  intro w hw
  obtain ⟨log, -, hown | ⟨hdefers, -⟩⟩ := exec_enters_of (act_enters fuel f s) w hw
  · exact hown.1
  · exact absurd (hs.symm.trans hdefers) Bool.false_ne_true

/-- What runs in another frame does not defer the result. -/
theorem World.Step.delayed_of_ne (h : World.Step g w w') (hne : f ≠ g) :
    (w'.frame f).delayed = (w.frame f).delayed := by
  cases h with
  | slots s =>
    exact frame_modifyFrame_field Frame.delayed (g := fun fr => { fr with slots := s fr.slots })
      (fun _ => rfl) w g f
  | next s =>
    exact frame_modifyFrame_field Frame.delayed (g := fun fr => { fr with nextStmt := some s })
      (fun _ => rfl) w g f
  | install c deadline isReturn span hc =>
    rw [frame_install]
    split
    · rw [frame_modifyFrame_of_ne (hc ▸ hne)]
    · rfl
  | _ => rfl

theorem Stmt.exec_staysUndeferred_of_ne {s : Stmt} (hne : f ≠ g) :
    Keeps (StaysUndeferred f) (s.exec fuel g) := by
  intro w hw
  have hsteps : ReflTransGen (World.Step g) w ((s.exec fuel g).leaves w) := exec_moves fuel g s w
  generalize (s.exec fuel g).leaves w = w' at hsteps
  refine ⟨(World.hasFrame_of_steps hsteps f).mpr hw.hasFrame, ?_⟩
  induction hsteps with
  | refl => exact hw.delayed
  | tail _ hstep ih => exact (hstep.delayed_of_ne hne).trans ih

end

/-! ## Operations -/

namespace World

variable {f g : FrameRef} {w w' : World}

/-- What runs in the frame has no `return when`. -/
def ReturnFreeIn (f g : FrameRef) (s : Stmt) : Prop := g = f → s.ReturnFree

theorem ReturnFreeIn.child {s t : Stmt} (h : ReturnFreeIn f g s) (ht : t ∈ s.children) :
    ReturnFreeIn f g t := fun hg => (h hg).child ht

theorem Undeferred.of_frames (h : Undeferred f w) (hframes : w'.frames = w.frames) :
    Undeferred f w' := by
  constructor
  · unfold HasFrame
    rw [hframes]
    exact h.hasFrame
  · unfold frame
    rw [hframes]
    exact h.delayed

theorem invariant_undeferred (f : FrameRef) :
    Invariant (ReturnFreeIn f) fun w => w.Confined (ReturnFreeIn f) ∧ Undeferred f w := by
  have hconfined : Invariant (ReturnFreeIn f) (Confined (ReturnFreeIn f)) :=
    invariant_confined fun _ s hs _ ht => hs.child (s.entered_subset ht)
  exact {
    clerical := by
      intro w k hk h
      obtain ⟨_, _, _, _, _, _, _, heq⟩ := hk.kept w
      exact ⟨hconfined.clerical hk h.1, h.2.of_frames (by rw [heq])⟩
    note := fun he h => ⟨hconfined.note he h.1, h.2.of_frames rfl⟩
    visit := fun hs h => ⟨hconfined.visit hs h.1, h.2.of_frames rfl⟩
    setNext := fun g s w h =>
      ⟨hconfined.setNext g s w h.1, Exec.setNext_staysUndeferred s w h.2⟩
    enter := fun r w h => ⟨hconfined.enter r w h.1, h.2.of_frames rfl⟩
    writeSlot := fun g i v w h =>
      ⟨hconfined.writeSlot g i v w h.1, (Local.writeSlot i v).staysUndeferred w h.2⟩
    eval := fun g e w h => ⟨hconfined.eval g e w h.1, (e.eval_local g).staysUndeferred w h.2⟩
    exec := by
      intro g s hs fuel w h
      refine ⟨hconfined.exec hs fuel w h.1, ?_⟩
      by_cases hg : g = f
      · subst hg
        exact Stmt.exec_staysUndeferred (hs rfl).defers w h.2
      · exact Stmt.exec_staysUndeferred_of_ne (Ne.symm hg) w h.2
    body := fun h hc hb => hconfined.body h.1 hc hb
    addFrame := fun size session h =>
      ⟨hconfined.addFrame size session h.1, Nat.lt_of_lt_of_eq (Nat.lt_succ_of_lt h.2.hasFrame)
        (Array.size_push _).symm, by rw [frame_addFrame h.2.hasFrame]; exact h.2.delayed⟩ }

end World

/-- The result of a frame of a unit without `return when` is never deferred,
wherever an operation gets. -/
theorem Script.Occupies.undeferred {s : Script} {f : FrameRef} {w w' : World} {op : HostOp}
    {fuel : Nat} {t : Stmt} (h : s.Occupies f w) (hfree : s.body.ReturnFree)
    (hop : op.RunsIn (World.OnlyIn f s.body)) (ht : op.Executes fuel w f t w') :
    Undeferred f w' := by
  obtain ⟨now, limits, w₁, session, hbefore, rfl, hafter⟩ := h
  have hmono : ∀ g t, World.OnlyIn (w₁.addFrame s.frameSize session).1 s.body g t →
      World.ReturnFreeIn (w₁.addFrame s.frameSize session).1 g t :=
    fun _ _ ht hg => hfree.below (ht hg)
  have hI := World.invariant_undeferred (w₁.addFrame s.frameSize session).1
  have hmade := (hbefore.mono hmono).perform (.newFrame s.frameSize session) 0 trivial
  have hnew : Undeferred (w₁.addFrame s.frameSize session).1
      (w₁.addFrame s.frameSize session).2 := by
    refine ⟨(World.hasRoom_addFrame _ _ _).1, ?_⟩
    change ((w₁.frames.push _)[w₁.frames.size]?.getD default).delayed = none
    rw [Array.getElem?_push_size]
    rfl
  have hw := hI.everIn (hafter.mono hmono)
    ⟨hmade.confined fun _ s hs _ ht => hs.child (s.entered_subset ht), hnew⟩
  exact (hI.executes (fun _ _ hs _ ht => hs.child ht) ht (hop.mono hmono) hw).1.2

end Vigil
