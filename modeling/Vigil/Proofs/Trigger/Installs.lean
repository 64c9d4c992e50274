import Vigil.Proofs.Exec.Veil
import Vigil.Proofs.Trigger.Fates
import Vigil.Proofs.Trigger.Tally

/-!
# Vigil.Proofs.Trigger.Installs — executing statements only installs triggers

Whatever a statement does and however it ends, the world after it is the world
before it with other contents of the collections and of the frame, and with
additions at the ends of some lists (`World.adding`): new triggers, those of
them that wait, printed lines, raised events, and notes that are not about any
trigger. Nothing else of the world changes, and no trigger that was there.
Every new trigger stands for one `when` that was executed.
-/

namespace Vigil

/-- What executions add to a world. Of the notes the latest is the first. -/
structure Additions where
  triggers : List Trigger
  lines : List String
  events : List Event
  notes : List Entry

namespace Additions

/-- One execution after another. -/
def append (a b : Additions) : Additions :=
  ⟨a.triggers ++ b.triggers, a.lines ++ b.lines, a.events ++ b.events, b.notes ++ a.notes⟩

/-- A new trigger waits for the frame `f`, or it was refused and holds nothing.
No note is about a look at a trigger, or about a body. -/
structure Sound (f : FrameRef) (a : Additions) : Prop where
  triggers : ∀ tr ∈ a.triggers, (tr.state = .pending ∧ ∃ c ∈ tr.captured, c.frame = f) ∨
    (tr.state = .cancelled ∧ tr.captured = none)
  notes : ∀ e ∈ a.notes, ∀ t, ¬ e.Concerns t

theorem Sound.append {f : FrameRef} {a b : Additions} (ha : a.Sound f) (hb : b.Sound f) :
    (a.append b).Sound f where
  triggers tr h := (List.mem_append.mp h).elim (ha.triggers tr) (hb.triggers tr)
  notes e h := (List.mem_append.mp h).elim (hb.notes e) (ha.notes e)

end Additions

namespace World

/-- Those of some triggers that wait, the first of them being number `n`. -/
def waitingFrom : Nat → List Trigger → List TriggerRef
  | _, [] => []
  | n, tr :: rest =>
    if tr.state = .pending then ⟨n⟩ :: waitingFrom (n + 1) rest else waitingFrom (n + 1) rest

theorem waitingFrom_append (n : Nat) (trs trs' : List Trigger) :
    waitingFrom n (trs ++ trs') = waitingFrom n trs ++ waitingFrom (n + trs.length) trs' := by
  induction trs generalizing n with
  | nil => rfl
  | cons tr trs ih =>
    rw [List.cons_append, waitingFrom, waitingFrom, ih (n + 1), List.length_cons,
      Nat.add_right_comm n 1, ← Nat.add_assoc n]
    split <;> rfl

/-- The world with other collections and frames, and with additions. -/
def adding (w : World) (heap : Heap) (frames : Array Frame) (a : Additions) : World :=
  { w with
    heap := heap
    frames := frames
    triggers := w.triggers ++ a.triggers.toArray
    fresh := w.fresh ++ waitingFrom w.triggers.size a.triggers
    stats := { w.stats with
      registered := w.stats.registered + a.triggers.countP fun tr => tr.state = .pending
      refused := w.stats.refused + a.triggers.countP fun tr => ¬ tr.state = .pending }
    output := w.output ++ a.lines.toArray
    events := w.events ++ a.events.toArray
    journal := a.notes ++ w.journal }

theorem adding_adding (w : World) (heap heap' : Heap) (frames frames' : Array Frame)
    (a b : Additions) :
    (w.adding heap frames a).adding heap' frames' b = w.adding heap' frames' (a.append b) := by
  unfold adding Additions.append
  simp [waitingFrom_append, Nat.add_assoc]

variable {f : FrameRef} {w w' : World}

/-- Only additions, and other contents of the collections and of the frame
`f`. -/
def OnlyAdds (f : FrameRef) (w w' : World) : Prop :=
  ∃ heap frames a, w' = w.adding heap frames a ∧ a.Sound f ∧
    ∀ g ≠ f, w'.frame g = w.frame g

theorem OnlyAdds.trans {w'' : World} (h : OnlyAdds f w w') (h' : OnlyAdds f w' w'') :
    OnlyAdds f w w'' := by
  obtain ⟨heap, frames, a, rfl, ha, hframe⟩ := h
  obtain ⟨heap', frames', b, rfl, hb, hframe'⟩ := h'
  refine ⟨heap', frames', a.append b, w.adding_adding .., ha.append hb, fun g hg => ?_⟩
  rw [hframe' g hg, hframe g hg]

/-- A change of the heap and the frames. -/
theorem OnlyAdds.inside (w : World) (heap : Heap) {frames : Array Frame}
    (hframes : ∀ g ≠ f, { w with frames := frames }.frame g = w.frame g) :
    OnlyAdds f w { w with heap := heap, frames := frames } :=
  ⟨heap, frames, ⟨[], [], [], []⟩, by simp [adding, waitingFrom], ⟨by simp, by simp⟩, hframes⟩

theorem OnlyAdds.rfl : OnlyAdds f w w := .inside w w.heap fun _ _ => by rfl

theorem OnlyAdds.install (c : Captured) (hf : c.frame = f) (deadline : Option Instant)
    (isReturn : Bool) (span : Span) : OnlyAdds f w (w.install c deadline isReturn span) := by
  have hframe : ∀ g ≠ f, (w.install c deadline isReturn span).frame g = w.frame g := by
    intro g hg
    rw [frame_install]
    split
    · exact frame_modifyFrame_of_ne (hf ▸ hg) _
    · rfl
  let notes : List Entry := if isReturn then [.defer c.frame w.nextTrigger] else []
  have hnotes : ∀ e ∈ notes, ∀ t, ¬ e.Concerns t := by
    cases isReturn <;> simp [notes, Entry.Concerns]
  refine ⟨w.heap, (w.install c deadline isReturn span).frames,
    ⟨[w.installed c deadline isReturn span], [], [], notes⟩, ?_, ⟨?_, hnotes⟩, hframe⟩
  · rw [install_eq]
    unfold adding installed
    by_cases hin : w.letsIn c <;> simp [hin, waitingFrom, nextTrigger, notes]
  · intro tr htr
    rw [List.mem_singleton.mp htr]
    unfold installed
    by_cases hin : w.letsIn c
    · exact .inl (by simp [hin, hf])
    · exact .inr (by simp [hin])

theorem Step.onlyAdds (h : Step f w w') : OnlyAdds f w w' := by
  cases h with
  | heap h => exact .inside w h fun _ _ => Eq.refl _
  | slots g => exact .inside w w.heap fun _ hg => frame_modifyFrame_of_ne hg _
  | next s => exact .inside w w.heap fun _ hg => frame_modifyFrame_of_ne hg _
  | visit s =>
    refine ⟨w.heap, w.frames, ⟨[], [], [], [.start s w.now]⟩, ?_, ⟨by simp, ?_⟩,
      fun _ _ => Eq.refl _⟩
    · simp [adding, waitingFrom]
    · simp [Entry.Concerns]
  | print line =>
    refine ⟨w.heap, w.frames, ⟨[], [line], [], []⟩, ?_, ⟨by simp, by simp⟩, fun _ _ => Eq.refl _⟩
    simp [adding, waitingFrom]
  | raise e =>
    refine ⟨w.heap, w.frames, ⟨[], [], [e], []⟩, ?_, ⟨by simp, by simp⟩, fun _ _ => Eq.refl _⟩
    simp [adding, waitingFrom]
  | install c deadline isReturn span hf => exact .install c hf deadline isReturn span

/-- A run adds whatever its steps add. -/
theorem onlyAdds_of_steps (h : Relation.ReflTransGen (Step f) w w') : OnlyAdds f w w' := by
  induction h with
  | refl => exact .rfl
  | tail _ hstep ih => exact ih.trans hstep.onlyAdds

end World

/-! ## One trigger for each `when` -/

namespace World

/-- As many triggers were added as `when`s were executed. -/
def OnePerWhen (form : StmtId → StmtTag) (w w' : World) : Prop :=
  w'.triggers.size + w.whens form = w.triggers.size + w'.whens form

instance {form : StmtId → StmtTag} : IsPreorder World (OnePerWhen form) where
  refl _ := rfl
  trans _ _ _ h h' := by
    unfold OnePerWhen at *
    omega

end World

namespace Stmt

variable {form : StmtId → StmtTag} {f : FrameRef} {fuel : Nat}

theorem when_onePerWhen {i : StmtInfo} {test : Expr} {body : Stmt} {timeout : Option Expr}
    {timeoutBody : Option Stmt} {isReturn : Bool} (hform : form i.id = .when) :
    Exec.Respects (World.OnePerWhen form)
      ((Stmt.when i test body timeout timeoutBody isReturn).exec fuel f) := by
  intro w hback
  obtain ⟨w₁, d, haside, hrun⟩ := exec_when_apart hback
  have hsize : (w₁.install ⟨test, body, timeoutBody, f⟩ d isReturn i.span).triggers.size =
      w.triggers.size + 1 := by
    obtain ⟨_, _, _, _, rfl⟩ := haside
    rw [World.install_eq, Array.size_push]
  have hwhens : (w₁.install ⟨test, body, timeoutBody, f⟩ d isReturn i.span).whens form =
      w.whens form + 1 := by
    obtain ⟨_, _, _, _, rfl⟩ := haside
    rw [World.install_eq]
    unfold World.whens
    have hstart : Entry.startsWhen form (.start i.id w.now) = true := by
      simpa [Entry.startsWhen] using hform
    cases isReturn
    · exact List.countP_cons_of_pos hstart
    · exact List.countP_cons_of_pos (p := Entry.startsWhen form) hstart
  unfold World.OnePerWhen Exec.leaves
  rw [hrun, hsize, hwhens]
  omega

/-- Of an execution that comes back, the `when`s and the triggers are as
many. -/
theorem exec_onePerWhen {s : Stmt} (hs : s.Numbered (some form)) :
    Exec.Respects (World.OnePerWhen form) (s.exec fuel f) := by
  have g : Guarantee (Numbered (some form)) fuel f (World.OnePerWhen form) := by
    refine .of_aside ?_ (fun s hs t ht => hs.part ht) (fun s hs htag w => ?_) fun s hs htag => ?_
    · rintro w w' ⟨_, _, _, _, rfl⟩
      rfl
    · have hnot : form s.id ≠ .when := by
        rw [hs.tag rfl]
        exact htag
      have hcount : World.whens form { w with journal := .start s.id w.now :: w.journal } =
          w.whens form :=
        List.countP_cons_of_neg (by simpa [Entry.startsWhen] using hnot)
      unfold World.OnePerWhen
      rw [hcount]
    · cases s with
      | «when» i test body timeout timeoutBody isReturn => exact when_onePerWhen (hs.tag rfl)
      | _ => cases htag
  exact g.exec hs

/-- Executing a statement only installs triggers. The world after it is the one
before it, with additions and with other contents of the collections and of the
frame. When it comes back, each `when` it executed has added a trigger, counted
as registered or as refused. And nothing that triggers hold, or that the
statement's own `when`s hand to theirs, plays a part in it. -/
theorem exec_only_installs {s : Stmt} {w w' : World} {r : Except Stop Outcome}
    (hrun : (s.exec fuel f).runFrom w = (r, w')) :
    (∃ heap frames a, w' = w.adding heap frames a ∧ a.Sound f ∧
      (∀ g ≠ f, w'.frame g = w.frame g) ∧
      (Exec.cameBack r → ∀ form, s.Numbered (some form) →
        a.triggers.length = a.notes.countP (Entry.startsWhen form) ∧
        w'.stats.registered + w'.stats.refused =
          w.stats.registered + w.stats.refused + a.notes.countP (Entry.startsWhen form))) ∧
    ∀ (s' : Stmt) (v : World), s'.veil = s.veil → v.veiled = w.veiled →
      ∃ v', (s'.exec fuel f).runFrom v = (r, v') ∧ v'.veiled = w'.veiled := by
  constructor
  · obtain ⟨heap, frames, a, rfl, ha, hframe⟩ :=
      World.onlyAdds_of_steps ((exec_moves fuel f s).steps hrun)
    refine ⟨heap, frames, a, rfl, ha, hframe, fun hback form hs => ?_⟩
    have hcount : World.OnePerWhen form w (w.adding heap frames a) :=
      (exec_onePerWhen hs).of_eq hrun hback
    have hsize : (w.adding heap frames a).triggers.size = w.triggers.size + a.triggers.length := by
      simp [World.adding]
    have hwhens : (w.adding heap frames a).whens form =
        a.notes.countP (Entry.startsWhen form) + w.whens form := List.countP_append
    have hlength : a.triggers.length = a.notes.countP (Entry.startsWhen form) := by
      unfold World.OnePerWhen at hcount
      omega
    have hsplit := a.triggers.length_eq_countP_add_countP fun tr => tr.state = .pending
    refine ⟨hlength, ?_⟩
    rw [← hlength, hsplit]
    simp only [World.adding, decide_not, decide_eq_true_eq]
    omega
  · intro s' v hs hv
    obtain ⟨hanswer, hleaves⟩ := exec_veil fuel f hs v w hv
    unfold Exec.leaves at hleaves
    rw [hrun] at hanswer hleaves
    exact ⟨((s'.exec fuel f).runFrom v).2, Prod.ext hanswer rfl, hleaves⟩

/-- Two `when`s for what holds already, and an event. -/
def twoWaits : Stmt :=
  let always : Expr := .const (.bool true) ⟨.bool, .unknown⟩
  .list ⟨0, .unknown⟩
    [.when ⟨1, .unknown⟩ always (.null ⟨2, .unknown⟩) none none false,
      .when ⟨3, .unknown⟩ always (.null ⟨4, .unknown⟩) none none false,
      .event ⟨5, .unknown⟩ "ready" []]

/-- Where one trigger may wait, the second is refused, and neither is looked
at. -/
theorem exec_only_installs_twoWaits :
    ∃ w r w', w.stats = ⟨0, 0, 0, 0, 0⟩ ∧
      (twoWaits.exec 0 ⟨0⟩).runFrom w = (r, w') ∧ Exec.cameBack r ∧
      w'.fresh = [⟨0⟩] ∧ w'.stats = ⟨1, 0, 0, 0, 1⟩ ∧
      ∃ heap frames a, w' = w.adding heap frames a ∧ a.Sound ⟨0⟩ ∧ a.triggers.length = 2 := by
  let w : World := ((World.start default ⟨none, some 1⟩).addFrame 0 none).2
  let form : StmtId → StmtTag := fun i =>
    if i = 0 then .list else if i = 1 ∨ i = 3 then .when else if i = 5 then .event else .null
  have hs : twoWaits.Numbered (some form) := by
    intro g hg
    cases hg
    decide
  have hfresh : ((twoWaits.exec 0 ⟨0⟩).runFrom w).2.fresh = [⟨0⟩] := by decide +kernel
  have hstats : ((twoWaits.exec 0 ⟨0⟩).runFrom w).2.stats = ⟨1, 0, 0, 0, 1⟩ := by decide +kernel
  have hback : Exec.cameBack ((twoWaits.exec 0 ⟨0⟩).runFrom w).1 := by decide +kernel
  have hnone : w.stats = ⟨0, 0, 0, 0, 0⟩ := rfl
  clear_value w
  rcases hrun : (twoWaits.exec 0 ⟨0⟩).runFrom w with ⟨r, w'⟩
  rw [hrun] at hfresh hstats hback
  obtain ⟨⟨heap, frames, a, hw, ha, -, hcount⟩, -⟩ := exec_only_installs hrun
  obtain ⟨hlength, hraised⟩ := hcount hback form hs
  rw [hstats, hnone] at hraised
  dsimp only at hraised
  exact ⟨w, r, w', hnone, hrun, hback, hfresh, hstats, heap, frames, a, hw, ha, by omega⟩

end Stmt

end Vigil
