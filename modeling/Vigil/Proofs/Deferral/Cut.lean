import Vigil.Proofs.Deferral.Reentry
import Vigil.Proofs.Exec.Simulates

/-!
# Vigil.Proofs.Deferral.Cut — bodies that run in a frame with a deferred result

A list looks after each of its statements whether the result of the frame is
deferred, and the mark is never taken off. So a statement that runs later in
such a frame, as the body of a trigger or as a further handler, runs as if each
of its lists ended with its first child (`Stmt.cut`): same prints, same events,
same changes, same outcome. `exec_mirrors` has this for every statement
that does not defer anything itself, and it says exactly when the earlier
deferral makes no difference.
-/

namespace Vigil

/-! ## Syntax -/

namespace Stmt

mutual

/-- The statement with each list cut to its first child. What waits for a
condition is not looked into. -/
def cut : Stmt → Stmt
  | .list i body => .list i (cutList body)
  | .bodyList i bodies => .bodyList i (cutEach bodies)
  | .cond i test thenBody elseBody => .cond i test (cut thenBody) (cut elseBody)
  | .while i test body => .while i test (cut body)
  | .for i vars valueVar target body => .for i vars valueVar target (cut body)
  | .switch i selector cases dispatch => .switch i selector (cutCases cases) dispatch
  | s => s

def cutList : List Stmt → List Stmt
  | [] => []
  | s :: _ => [cut s]

def cutEach : List Stmt → List Stmt
  | [] => []
  | s :: rest => cut s :: cutEach rest

def cutCases : List Case → List Case
  | [] => []
  | .mk labels body span :: rest => .mk labels (cut body) span :: cutCases rest

end

theorem info_cut (s : Stmt) : s.cut.info = s.info := by
  cases s
  all_goals
    rw [cut]
    try rfl
  all_goals simp

theorem id_cut (s : Stmt) : s.cut.id = s.id := congrArg StmtInfo.id (info_cut s)

theorem cutEach_eq (ss : List Stmt) : cutEach ss = ss.map cut := by
  induction ss with
  | nil => rw [cutEach, List.map_nil]
  | cons s rest ih => rw [cutEach, ih, List.map_cons]

theorem cutCases_eq (cases : List Case) :
    cutCases cases = cases.map fun c => .mk c.labels c.body.cut c.span := by
  induction cases with
  | nil => rw [cutCases, List.map_nil]
  | cons c rest ih =>
    obtain ⟨labels, body, span⟩ := c
    rw [cutCases, ih, List.map_cons]
    rfl

/-- Apart from its lists, the statement is the same with its parts cut. -/
theorem cut_eq_mapParts {s : Stmt} (hlist : s.tag ≠ .list) : s.cut = s.mapParts cut := by
  cases s with
  | list => contradiction
  | bodyList => rw [cut, cutEach_eq, mapParts]
  | switch => rw [cut, cutCases_eq, mapParts]
  | cond | «while» | «for» => rw [cut, mapParts]
  | _ =>
    rw [cut]
    · rfl
    all_goals simp

theorem defersList_eq_false_iff {ss : List Stmt} :
    defersList ss = false ↔ ∀ s ∈ ss, s.defers = false := by
  induction ss with
  | nil => simp [defersList]
  | cons s rest ih => simp [defersList, ih]

theorem defersCases_eq_false_iff {cases : List Case} :
    defersCases cases = false ↔ ∀ c ∈ cases, c.body.defers = false := by
  induction cases with
  | nil => simp [defersCases]
  | cons c rest ih =>
    obtain ⟨labels, body, span⟩ := c
    simp [defersCases, ih, Case.body]

/-- What does not defer has no part that does. -/
theorem defers_of_mem_parts {s t : Stmt} (h : s.defers = false) (ht : t ∈ s.parts) :
    t.defers = false := by
  cases s with
  | list i body =>
    rw [defers] at h
    exact defersList_eq_false_iff.mp h t ht
  | bodyList i bodies =>
    rw [defers] at h
    exact defersList_eq_false_iff.mp h t ht
  | cond i test thenBody elseBody =>
    rw [defers, Bool.or_eq_false_iff] at h
    rcases List.mem_pair.mp ht with rfl | rfl
    · exact h.1
    · exact h.2
  | «while» i test body =>
    rw [defers] at h
    rwa [List.mem_singleton.mp ht]
  | «for» i vars valueVar target body =>
    rw [defers] at h
    rwa [List.mem_singleton.mp ht]
  | switch i selector cases dispatch =>
    rw [defers] at h
    obtain ⟨c, hc, rfl⟩ := List.mem_map.mp ht
    exact defersCases_eq_false_iff.mp h c hc
  | _ => cases ht

end Stmt

/-! ## Worlds that differ in a deferral -/

namespace World

variable {f : FrameRef} {t : TriggerRef} {w : World}

/-- The world in which the result of a frame was left to a trigger before. -/
def withDeferral (f : FrameRef) (t : TriggerRef) (w : World) : World :=
  w.modifyFrame f fun fr => { fr with delayed := some t }

theorem sameStore_withDeferral (f : FrameRef) (t : TriggerRef) (w : World) :
    SameStore f w (w.withDeferral f t) where
  heap := rfl
  slots := frame_modifyFrame_field Frame.slots (g := fun fr => { fr with delayed := some t })
    (fun _ => rfl) w f f
  hasFrame := hasFrame_modifyFrame

theorem withStore_withDeferral (h : Heap) (s : Slots) :
    (w.withDeferral f t).withStore f h s = (w.withStore f h s).withDeferral f t := by
  have hcomm := modifyFrame_comm (fun fr => { fr with slots := s })
    (fun fr => { fr with delayed := some t }) (fun _ => rfl) w f
  exact congrArg (fun v : World => { v with heap := h }) hcomm

theorem Undeferred.withStore (hw : Undeferred f w) (h : Heap) (s : Slots) :
    Undeferred f (w.withStore f h s) where
  hasFrame := hasFrame_modifyFrame.mpr hw.hasFrame
  delayed := (frame_modifyFrame_field Frame.delayed (g := fun fr => { fr with slots := s })
    (fun _ => rfl) w f f).trans hw.delayed

/-- The first world is the second with the result of a frame left to a trigger,
as it is not in the second. -/
def Marked (f : FrameRef) (t : TriggerRef) (v w : World) : Prop :=
  Undeferred f w ∧ v = w.withDeferral f t

theorem delayed_withDeferral (hf : w.HasFrame f) :
    ((w.withDeferral f t).frame f).delayed = some t := by
  rw [withDeferral, frame_modifyFrame_self hf]

end World

namespace Exec

open World (Undeferred)

variable {α : Type} {f : FrameRef} {t : TriggerRef}

/-- In a frame with a deferred result, `x` does what `y` does in one without. -/
def Mirrors (f : FrameRef) (t : TriggerRef) (x y : Exec α) : Prop :=
  ∀ w, Undeferred f w → Undeferred f (y.leaves w) ∧
    x.runFrom (w.withDeferral f t) = ((y.runFrom w).1, (y.leaves w).withDeferral f t)

/-- Both are runs from worlds that the deferral tells apart. -/
theorem mirrors_iff {x y : Exec α} :
    Mirrors f t x y ↔ Simulates (World.Marked f t) x y := by
  constructor
  · rintro h _ w ⟨hw, rfl⟩
    obtain ⟨hu, hrun⟩ := h w hw
    unfold leaves at hu hrun ⊢
    rw [hrun]
    exact ⟨rfl, hu, rfl⟩
  · intro h w hw
    obtain ⟨hanswer, hu, hleaves⟩ := h _ w ⟨hw, rfl⟩
    exact ⟨hu, Prod.ext hanswer hleaves⟩

end Exec

/-! ## Statements -/

namespace Stmt

open Exec World

variable {f : FrameRef} {t : TriggerRef}

/-- A change of the world that does not touch the deferral. -/
theorem modify_marked {g : World → World} (hu : ∀ w, Undeferred f w → Undeferred f (g w))
    (hg : ∀ w, g (w.withDeferral f t) = (g w).withDeferral f t) :
    Simulates (Marked f t) (modify g : Exec Unit) (modify g) := by
  refine .modify ?_
  rintro _ w ⟨hw, rfl⟩
  exact ⟨hu w hw, hg w⟩

/-- What expressions and bindings do. -/
theorem marked_of_local {α : Type} {x : Exec α} (hx : Local f x) :
    Simulates (Marked f t) x x := by
  rintro _ w ⟨hw, rfl⟩
  obtain ⟨r, h, s, -, hx⟩ := hx w
  unfold leaves
  rw [hx w (.refl f w), hx _ (sameStore_withDeferral f t w)]
  exact ⟨rfl, hw.withStore h s, withStore_withDeferral h s⟩

theorem alike_marked (f : FrameRef) (t : TriggerRef) : Alike (Marked f t) f where
  heap := by
    rintro _ w ⟨-, rfl⟩
    rfl
  now := by
    rintro _ w ⟨-, rfl⟩
    rfl
  limits := by
    rintro _ w ⟨-, rfl⟩
    rfl
  store := marked_of_local
  visit _ := modify_marked (fun _ hw => ⟨hw.hasFrame, hw.delayed⟩) fun _ => rfl
  setNext s := by
    refine modify_marked (fun w hw => ⟨hasFrame_modifyFrame.mpr hw.hasFrame, ?_⟩) fun w => ?_
    · exact (frame_modifyFrame_field Frame.delayed
        (g := fun fr => { fr with nextStmt := some s }) (fun _ => rfl) w f f).trans hw.delayed
    · exact modifyFrame_comm (fun fr => { fr with nextStmt := some s })
        (fun fr => { fr with delayed := some t }) (fun _ => rfl) w f
  raise _ _ := modify_marked (fun _ hw => ⟨hw.hasFrame, hw.delayed⟩) fun _ => rfl
  print _ := modify_marked (fun _ hw => ⟨hw.hasFrame, hw.delayed⟩) fun _ => rfl

/-- A trigger that is no `return when` is installed the same. -/
theorem install_marked (test : Expr) (body : Stmt) (timeoutBody : Option Stmt)
    (timeout : Option Expr) (span : Span) :
    Simulates (Marked f t) (install ⟨test, body, timeoutBody, f⟩ timeout false span)
      (install ⟨test, body, timeoutBody, f⟩ timeout false span) := by
  refine .bind ((alike_marked f t).rules.deadline timeout) fun limit =>
    modify_marked (fun w hw => ?_) fun w => ?_
  · rw [install_eq]
    exact ⟨hw.hasFrame, hw.delayed⟩
  · -- whether a trigger is let in depends on its session, not on the deferral
    have hsession : ((w.withDeferral f t).frame f).session = (w.frame f).session :=
      frame_modifyFrame_field Frame.session (g := fun fr => { fr with delayed := some t })
        (fun _ => rfl) w f f
    have hlets : (w.withDeferral f t).letsIn ⟨test, body, timeoutBody, f⟩ =
        w.letsIn ⟨test, body, timeoutBody, f⟩ := by
      unfold letsIn
      rw [hsession]
      rfl
    have hnew : (w.withDeferral f t).installed ⟨test, body, timeoutBody, f⟩ limit false span =
        w.installed ⟨test, body, timeoutBody, f⟩ limit false span := by
      unfold installed
      rw [hlets, hsession]
    rw [install_eq, install_eq, hlets, hnew]
    rfl

/-- With a deferred result a list ends after one child, as a list of one child
does without. -/
theorem list_marked (out : Outcome) (k : Exec Outcome) :
    Simulates (Marked f t)
      (hasDelayed f >>= fun delayed =>
        if out.flow ≠ .next || out.value.isSome || delayed then pure out else k)
      (hasDelayed f >>= fun delayed =>
        if out.flow ≠ .next || out.value.isSome || delayed then pure out else pure .next) := by
  rintro _ w ⟨hw, rfl⟩
  -- without a deferral the cut list has no further child, so both end with `out`
  have hout : (hasDelayed f >>= fun delayed =>
      if out.flow ≠ .next || out.value.isSome || delayed then pure out else pure .next).runFrom w =
        (.ok out, w) := by
    rw [runFrom_bind, runFrom_hasDelayed, hw.delayed]
    obtain ⟨value, flow⟩ := out
    cases flow <;> cases value <;> rfl
  have hends : (hasDelayed f >>= fun delayed =>
      if out.flow ≠ .next || out.value.isSome || delayed then pure out else k).runFrom
        (w.withDeferral f t) = (.ok out, w.withDeferral f t) := by
    rw [runFrom_bind, runFrom_hasDelayed, delayed_withDeferral hw.hasFrame]
    simp
  unfold leaves
  rw [hout, hends]
  exact ⟨rfl, hw, rfl⟩

/-- In a frame with a deferred result a statement runs like its cut. -/
theorem exec_mirrors (fuel : Nat) (f : FrameRef) (t : TriggerRef) {s : Stmt}
    (h : s.defers = false) : Mirrors f t (exec fuel f s) (exec fuel f s.cut) := by
  have hcongruence : Congruence (fun s => s.defers = false) cut fuel fuel f
      (Simulates (Marked f t)) := by
    refine (alike_marked f t).congruence (fun _ hs _ ht => defers_of_mem_parts hs ht) info_cut
      (fun _ hlist _ => cut_eq_mapParts hlist) (fun i body _ hbody => ?_) fun s hs htag => ?_
    · cases body with
      | nil => exact .pure _
      | cons s rest =>
        rw [cut, cutList, act, act, execList, execList, execList, id_cut]
        exact .bind ((alike_marked f t).setNext _) fun _ =>
          .bind (hbody s List.mem_cons_self) fun out => list_marked out _
    · cases s with
      | «when» i test body timeout timeoutBody isReturn =>
        rw [defers] at hs
        rw [hs, cut_eq_mapParts (by simp [tag])]
        exact .bind (install_marked test body timeoutBody timeout _) fun _ => .pure _
      | _ => cases htag
  exact mirrors_iff.mpr (hcongruence.exec h)

end Stmt

/-! ## Effects -/

namespace World

variable {f : FrameRef} {t : TriggerRef} {w : World}

/-- Two runs answer the same and leave the same prints, events, collections
and slots. -/
structure SameEffects (a b : Except Stop Outcome × World) : Prop where
  answer : a.1 = b.1
  output : a.2.output = b.2.output
  events : a.2.events = b.2.events
  heap : a.2.heap = b.2.heap
  slots : ∀ g, (a.2.frame g).slots = (b.2.frame g).slots

theorem sameEffects_refl (a : Except Stop Outcome × World) : SameEffects a a :=
  ⟨rfl, rfl, rfl, rfl, fun _ => rfl⟩

/-- A deferral is no effect. -/
theorem sameEffects_withDeferral_iff {r : Except Stop Outcome}
    {b : Except Stop Outcome × World} :
    SameEffects (r, w.withDeferral f t) b ↔ SameEffects (r, w) b := by
  have hslots : ∀ g, ((w.withDeferral f t).frame g).slots = (w.frame g).slots :=
    frame_modifyFrame_field Frame.slots (g := fun fr => { fr with delayed := some t })
      (fun _ => rfl) w f
  constructor
  · rintro ⟨ha, ho, he, hh, hs⟩
    exact ⟨ha, ho, he, hh, fun g => (hslots g).symm.trans (hs g)⟩
  · rintro ⟨ha, ho, he, hh, hs⟩
    exact ⟨ha, ho, he, hh, fun g => (hslots g).trans (hs g)⟩

/-- The body of a trigger in a frame with a deferred result. -/
theorem runBody_withDeferral (fuel : Nat) (u : TriggerRef) {s : Stmt} (hs : s.defers = false)
    (hw : Undeferred f w) :
    (runBody fuel u f s).runFrom (w.withDeferral f t) =
      (((runBody fuel u f s.cut).runFrom w).1,
        ((runBody fuel u f s.cut).leaves w).withDeferral f t) := by
  obtain ⟨-, hrun⟩ := Stmt.exec_mirrors fuel f t hs w hw
  unfold Exec.leaves at hrun ⊢
  rw [runFrom_runBody, runFrom_runBody, hrun]
  rcases (s.cut.exec fuel f).runFrom w with ⟨(e | e | _) | out, w₁⟩
  · rfl
  · rfl
  · rfl
  · have hret : ((w.withDeferral f t).trigger u).isReturn = (w.trigger u).isReturn := rfl
    dsimp only
    rw [hret]
    cases (w.trigger u).isReturn <;> rfl

/-- An earlier deferral makes a body run like its cut: alone it makes no
difference exactly when the body and its cut have the same effects, and the
value a trigger keeps is the one of the cut. -/
theorem deferred_body_runs_as_cut (fuel : Nat) (f : FrameRef) (t u : TriggerRef) (s : Stmt)
    (w : World) (hs : s.defers = false) (hw : Undeferred f w) :
    (SameEffects ((s.exec fuel f).runFrom (w.withDeferral f t)) ((s.exec fuel f).runFrom w) ↔
      SameEffects ((s.cut.exec fuel f).runFrom w) ((s.exec fuel f).runFrom w)) ∧
    (s.cut = s →
      SameEffects ((s.exec fuel f).runFrom (w.withDeferral f t)) ((s.exec fuel f).runFrom w)) ∧
    ((runBody fuel u f s).leaves (w.withDeferral f t)).trigger u =
      ((runBody fuel u f s.cut).leaves w).trigger u := by
  obtain ⟨-, hrun⟩ := Stmt.exec_mirrors fuel f t hs w hw
  -- the deferred run is the run of the cut, up to the deferral itself
  have hiff : SameEffects ((s.exec fuel f).runFrom (w.withDeferral f t))
      ((s.exec fuel f).runFrom w) ↔
        SameEffects ((s.cut.exec fuel f).runFrom w) ((s.exec fuel f).runFrom w) := by
    rw [hrun]
    exact sameEffects_withDeferral_iff
  refine ⟨hiff, fun hcut => hiff.mpr ?_, ?_⟩
  · rw [hcut]
    exact sameEffects_refl _
  · rw [Exec.leaves, runBody_withDeferral fuel u hs hw]
    rfl

/-- A body with a list in an `if`, which prints before it returns a value. After
a deferral it ends with the print, and the trigger keeps no value. -/
theorem deferred_body_runs_as_cut_nested :
    ∃ (s : Stmt) (w : World), s.defers = false ∧ Undeferred ⟨0⟩ w ∧
      ¬SameEffects ((s.exec 1 ⟨0⟩).runFrom (w.withDeferral ⟨0⟩ ⟨0⟩)) ((s.exec 1 ⟨0⟩).runFrom w) ∧
      (((runBody 1 ⟨0⟩ ⟨0⟩ s).leaves w).trigger ⟨0⟩).result = some (.count 42) ∧
      (((runBody 1 ⟨0⟩ ⟨0⟩ s).leaves (w.withDeferral ⟨0⟩ ⟨0⟩)).trigger ⟨0⟩).result = none := by
  let yes : Expr := .constant (.bool true) .unknown
  let value : Expr := .constant (.count 42) .unknown
  let inner : Stmt := .list ⟨3, .unknown⟩ [.print ⟨1, .unknown⟩ [yes], .return ⟨2, .unknown⟩ value]
  let s : Stmt := .list ⟨6, .unknown⟩ [.cond ⟨5, .unknown⟩ yes inner (.null ⟨4, .unknown⟩)]
  let w₀ := ((World.start default default).addFrame 0 none).2
  let w := (w₀.addTrigger ⟨yes, s, none, ⟨0⟩⟩ none true .unknown).2
  have hw : Undeferred ⟨0⟩ w := ⟨by decide, rfl⟩
  obtain ⟨hiff, -, hkept⟩ := deferred_body_runs_as_cut 1 ⟨0⟩ ⟨0⟩ ⟨0⟩ s w rfl hw
  have hanswers : ((s.cut.exec 1 ⟨0⟩).runFrom w).1.toOption ≠
      ((s.exec 1 ⟨0⟩).runFrom w).1.toOption := by decide +kernel
  refine ⟨s, w, rfl, hw, fun h => ?_, by decide +kernel, ?_⟩
  · exact hanswers (congrArg Except.toOption (hiff.mp h).answer)
  · rw [hkept]
    decide +kernel

/-- A `return when` whose body prints before it returns a value. -/
def deferredSequence : Doc.Unit where
  name := "u"
  kind := .function (some .count)
  locals := []
  body := .when (.const (.bool true))
    (.list [.print [.const (.str "a")], .return (some (.const (.count 42)))]) none true

/-- The trigger fires and the value its body ends in is lost. -/
theorem deferral_cuts_own_body :
    ∃ script, Script.load deferredSequence 0 = .ok script ∧
      ∃ w : World, Undeferred ⟨0⟩ w ∧
        (((do let _ ← script.run 1 ⟨0⟩; checkAll 1 : Exec Unit).leaves w).trigger ⟨0⟩).state =
          .fired ∧
        ((do let _ ← script.run 1 ⟨0⟩; checkAll 1 : Exec Unit).leaves w).output = #["a"] ∧
        (((do let _ ← script.run 1 ⟨0⟩; checkAll 1 : Exec Unit).leaves w).trigger ⟨0⟩).result =
          none := by
  have hload : (Script.build deferredSequence 0).hasErrors = false := by decide +kernel
  exact ⟨.build deferredSequence 0, Script.load_eq_ok_iff.mpr ⟨rfl, hload⟩,
    ((World.start default default).addFrame 0 none).2, ⟨by decide, rfl⟩, by decide +kernel,
    by decide +kernel, by decide +kernel⟩

end World

end Vigil
