import Vigil.Proofs.Coverage.Runs
import Vigil.Proofs.Trigger.Accounts
import Vigil.Proofs.Trigger.Confined

/-!
# Vigil.Proofs.Coverage.Histories — coverage counts through a history

Between the operations of a history the counts of all statements fit
(`World.coverage_consistent`). A run of a script adds counts that fit. The body
that a trigger runs was left to it by a `when` of one of the scripts
(`World.Sourced`): this `when` gives up one trigger that waits for one start of
a body, and no other statement is concerned but those of the body.
-/

namespace Vigil

open Stmt (forest Distinct Ran)

namespace World

variable {fuel : Nat} {f : FrameRef} {s : Stmt} {r : Except Stop Outcome} {allowed : Script → Prop}

/-- What a trigger holds was given to it by a `when`. -/
def Sourced (ss : List Stmt) (w : World) : Prop :=
  ∀ t c, (w.trigger t).captured = some c → ∃ i timeout isReturn,
    Stmt.when i c.cond c.body timeout c.timeoutBody isReturn ∈ forest ss

/-- Counts fit, and bodies that wait come from `when`s. -/
structure Covered (ss : List Stmt) (w : World) : Prop where
  fits : ∀ q ∈ forest ss, q.Fits w.counts
  sourced : w.Sourced ss

variable {ss : List Stmt} {w w' : World} {t : TriggerRef} {c : Captured}

theorem Sourced.of_captured (h : w.Sourced ss)
    (hsame : ∀ u, (w'.trigger u).captured = (w.trigger u).captured ∨
      (w'.trigger u).captured = none) : w'.Sourced ss := by
  intro u c hc
  rcases hsame u with hu | hu
  · exact h u c (hu ▸ hc)
  · rw [hu] at hc
    cases hc

theorem waitsFor_congr (hsize : w'.triggers.size = w.triggers.size)
    (hsame : ∀ u, (w'.trigger u).captured = (w.trigger u).captured) (i : StmtId) :
    w'.waitsFor i = w.waitsFor i := by
  refine census_congr hsize fun u _ => ?_
  rw [hsame u]

/-- What triggers hold and how often statements started is all that counts. -/
theorem Covered.same (h : Covered ss w) (hsize : w'.triggers.size = w.triggers.size)
    (hsame : ∀ u, (w'.trigger u).captured = (w.trigger u).captured)
    (hjournal : ∀ i, w'.journal.count i = w.journal.count i) : Covered ss w' := by
  have hcounts : w'.counts = w.counts := by
    ext i
    · exact hjournal i
    · exact waitsFor_congr hsize hsame i
  exact ⟨hcounts ▸ h.fits, h.sourced.of_captured fun u => .inl (hsame u)⟩

theorem Covered.still (h : Covered ss w) (htriggers : w'.triggers = w.triggers)
    (hjournal : ∀ i, w'.journal.count i = w.journal.count i) : Covered ss w' := by
  refine h.same (by rw [htriggers]) (fun u => ?_) hjournal
  unfold trigger
  rw [htriggers]

/-! ## Triggers that stop waiting -/

theorem captured_leave (w : World) (t u : TriggerRef) (state : TriggerState) :
    ((w.leave t state).trigger u).captured = (w.trigger u).captured ∨
      ((w.leave t state).trigger u).captured = none := by
  by_cases hu : u = t
  · subst hu
    by_cases hc : w.Created u
    · right
      rw [leave, trigger_modifyTrigger_self hc]
    · left
      rw [leave, trigger_of_not_created hc, trigger_of_not_created (mt created_modifyTrigger.mp hc)]
  · left
    rw [leave, trigger_modifyTrigger_of_ne hu]

theorem waitsFor_leave_le (w : World) (t : TriggerRef) (state : TriggerState) (i : StmtId) :
    (w.leave t state).waitsFor i ≤ w.waitsFor i := by
  have hrefs : (w.leave t state).refs = w.refs := by simp [refs, leave, modifyTrigger]
  unfold waitsFor census
  rw [hrefs]
  refine List.countP_mono_left fun u _ hu => ?_
  dsimp only at hu ⊢
  rcases captured_leave w t u state with hsame | hnone
  · rwa [hsame] at hu
  · rw [hnone] at hu
    cases hu

/-- The trigger waits no more for its body. -/
theorem waitsFor_leave_self (hc : (w.trigger t).captured = some c) (state : TriggerState) :
    w.waitsFor c.body.id = (w.leave t state).waitsFor c.body.id + 1 := by
  have hcreated : w.Created t := by
    by_contra hout
    rw [trigger_of_not_created hout] at hc
    cases hc
  unfold waitsFor
  refine census_succ (t := t) (by simp [leave, modifyTrigger]) ?_ ?_ ?_ fun u hu => ?_
  · exact created_modifyTrigger.mpr hcreated
  · rw [leave, trigger_modifyTrigger_self hcreated]
    rfl
  · simp [hc]
  · exact (trigger_modifyTrigger_of_ne hu _).symm

theorem Covered.leave (h : Covered ss w) (t : TriggerRef) (state : TriggerState) :
    Covered ss (w.leave t state) :=
  ⟨fun q hq => (h.fits q hq).fewer rfl (waitsFor_leave_le w t state),
    h.sourced.of_captured (captured_leave w t · state)⟩

/-! ## Executions -/

/-- What triggers hold is confined to statements of the scripts. Where it starts is
not asked here, so any number may be that of an empty statement. -/
theorem sourced_iff :
    w.Confined (fun _ s => s ∈ forest ss ∨ s.tag = .null) ↔ w.Sourced ss := by
  constructor
  · intro h t c hc
    obtain ⟨i, timeout, isReturn, hwhen | hnull⟩ := h.held t c hc
    · exact ⟨i, timeout, isReturn, hwhen⟩
    · cases hnull
  · intro h
    refine ⟨fun i _ _ => ⟨⟨0⟩, .null ⟨i, .unknown⟩, .inr rfl, rfl⟩, fun t c hc => ?_⟩
    obtain ⟨i, timeout, isReturn, hwhen⟩ := h t c hc
    exact ⟨i, timeout, isReturn, .inl hwhen⟩

theorem exec_sourced (hs : s ∈ forest ss) (h : w.Sourced ss) :
    ((s.exec fuel f).leaves w).Sourced ss := by
  refine sourced_iff.mp (exec_confined (fun _ s hs t ht => ?_) fuel (.inl hs) w
    (sourced_iff.mpr h))
  have hchild := s.entered_subset ht
  rcases hs with hs | hnull
  · obtain ⟨root, hroot, hin⟩ := List.mem_flatMap.mp hs
    exact .inl (Stmt.preorder_subset_forest hroot (Stmt.children_subset hin hchild))
  · cases s <;> cases hnull
    cases hchild

/-- A statement that comes back leaves counts that fit, if those that it adds to
fit together with what any execution of it adds. -/
theorem covered_of_exec (hdistinct : Distinct (forest ss)) (hs : s ∈ forest ss)
    (hsourced : w.Sourced ss) (hfits : ∀ d, Ran s d → ∀ q ∈ forest ss, q.Fits (w.counts + d))
    (hrun : (s.exec fuel f).runFrom w = (r, w')) (hback : Exec.cameBack r) : Covered ss w' := by
  obtain ⟨root, hroot, hin⟩ := List.mem_flatMap.mp hs
  obtain ⟨d, hd, hran⟩ :=
    (Stmt.exec_ran fuel f s ((hdistinct.tree hroot).subtree hin)).of_eq hrun hback
  have hafter : ((s.exec fuel f).leaves w).Sourced ss := exec_sourced hs hsourced
  rw [Exec.leaves, hrun] at hafter
  exact ⟨fun q hq => hd ▸ hfits d hran q hq, hafter⟩

/-- Running a script, whose body is below no other statement. -/
theorem Covered.run (h : Covered ss w) (hdistinct : Distinct (forest ss)) (hs : s ∈ ss)
    (hrun : (s.exec fuel f).runFrom w = (r, w')) (hback : Exec.cameBack r) :
    Covered ss w' := by
  have hroot := Stmt.mem_forest_self hs
  refine covered_of_exec hdistinct hroot h.sourced (fun d hd q hq => ?_) hrun hback
  exact (h.fits q hq).add ((hd.inside.widen hdistinct hs).fits q hq)

/-- A trigger that fires or times out. -/
theorem Covered.settle {state : TriggerState} (h : Covered ss w) (hdistinct : Distinct (forest ss))
    (hc : (w.trigger t).captured = some c) (hstate : state = .fired ∨ state = .timedOut)
    (hrun : (settle fuel t state c).runFrom w = (.ok (), w')) : Covered ss w' := by
  have hleave := h.leave t state
  obtain ⟨-, rfl⟩ | ⟨b, hbody, hrun⟩ := settle_apart hrun
  · exact hleave
  obtain ⟨i, timeout, isReturn, hwhen⟩ := h.sourced t c hc
  have hb : b ∈ (Stmt.when i c.cond c.body timeout c.timeoutBody isReturn).children := by
    rcases hstate with rfl | rfl
    · cases hbody
      exact List.mem_cons_self
    · exact List.mem_cons_of_mem _ (Option.mem_toList.mpr hbody)
  obtain ⟨root, hroot, hin⟩ := List.mem_flatMap.mp hwhen
  have hbelow : b ∈ forest ss :=
    Stmt.preorder_subset_forest hroot (Stmt.children_subset hin hb)
  have hnote : ∀ i, Journal.count (.body t state b :: w.journal) i = w.journal.count i :=
    fun i => List.countP_cons_of_neg (by simp [Entry.startOf?])
  set w₁ := w.settled t state b
  have hcovered : Covered ss w₁ := hleave.still rfl hnote
  have hstarts : w₁.counts.starts = w.counts.starts := funext hnote
  obtain ⟨r, w₂, hexec, hback, hkept⟩ := runBody_apart hrun
  have h₂ : Covered ss w₂ := by
    refine covered_of_exec hdistinct hbelow hcovered.sourced (fun d hd q hq => ?_) hexec hback
    -- only the `when` has both the body that runs and the trigger that waited
    rcases hdistinct.place hbelow hq with hq' | hq' | hq'
    · exact (hcovered.fits q hq).add (hd.inside.fits q hq')
    · cases hdistinct.parent_unique hq hwhen hq' hb
      exact (h.fits _ hwhen).run_body ((hdistinct.tree hroot).subtree hin) hb hd hstarts
        (waitsFor_leave_self hc state)
    · refine (hcovered.fits q hq).add (Stmt.fits_of_quiet (fun j hj => ?_) fun j hj => ?_)
      · exact (hd.inside.within j fun hin => hq' hj hin).1
      · exact (hd.inside.within j fun hin => hq' (List.mem_cons_of_mem _ hj) hin).2
  rcases hkept with rfl | ⟨v, rfl⟩
  · exact h₂
  · refine h₂.same (by simp [modifyTrigger]) (fun u => ?_) fun _ => rfl
    obtain ⟨r', hr⟩ := trigger_modifyTrigger_result w₂ t u v
    rw [hr]

/-! ## Histories -/

theorem upheld_covered (hdistinct : Distinct (forest ss)) (hallowed : ∀ s, allowed s → s.body ∈ ss)
    (b : World) :
    Upheld allowed b fun _ => Covered ss where
  still h htriggers _ hjournal := h.still htriggers fun _ => by rw [hjournal]
  looked _ _ h := h.still rfl fun _ => List.countP_cons_of_neg (by simp [Entry.startOf?])
  cancel h _ _ := h.leave _ .cancelled
  settle h _ hc hstate hrun := h.settle hdistinct hc hstate hrun
  pay h _ := h.still rfl fun _ => rfl
  run h hs hrun hback := h.run hdistinct (hallowed _ hs) hrun hback

theorem Covered.start (now : Instant) (limits : Limits) : Covered ss (.start now limits) := by
  have hnone : ∀ t, ((World.start now limits).trigger t).captured = none := fun t => rfl
  refine ⟨fun q _ => q.fits_zero.congr (fun _ _ => rfl) fun _ _ => rfl, fun t c hc => ?_⟩
  rw [hnone] at hc
  cases hc

theorem History.covered {past : List World} (h : History allowed (w :: past))
    (hdistinct : Distinct (forest ss)) (hallowed : ∀ s, allowed s → s.body ∈ ss) :
    Covered ss w := by
  generalize hws : w :: past = ws at h
  induction h generalizing w past with
  | start now limits =>
    cases hws
    exact .start now limits
  | step h hop hrun ih =>
    cases hws
    exact (upheld_covered hdistinct hallowed _).perform h.ledger.toRoster (ih rfl) hop hrun

/-- Whatever the host does with some units, between its operations the counts
of each statement and of those right below it fit together. -/
theorem coverage_consistent {units : List (Doc.Unit × StmtId)} (hapart : Script.Apart units)
    {allowed : Script → Prop}
    (hunits : ∀ s, allowed s → s ∈ units.map fun a => Script.build a.1 a.2)
    {past : List World} (h : History allowed (w :: past)) :
    ∀ s ∈ Script.stmtsOf units, s.Fits w.counts := by
  set bodies := units.map fun a => (Script.build a.1 a.2).body with hbodies
  have hforest : forest bodies = Script.stmtsOf units := List.flatMap_map _ _ _
  have hdistinct : Distinct (forest bodies) := by
    rw [hforest]
    exact Script.nodup_stmtsOf hapart
  have hallowed : ∀ s, allowed s → s.body ∈ bodies := by
    intro s hs
    obtain ⟨a, ha, rfl⟩ := List.mem_map.mp (hunits s hs)
    exact List.mem_map_of_mem ha
  rw [← hforest]
  exact (h.covered hdistinct hallowed).fits

/-- A unit with two `when`s, an `if` and event handlers, whose last statement
but one fails. -/
def manyForms : Doc.Unit :=
  let fails : Doc.Stmt := .expr (.binary .div (.const (.int 1)) (.const (.int 0)))
  let nothing : Doc.Stmt := .null
  let waits (test : Bool) (timeout : Option Doc.Timeout) : Doc.Stmt :=
    .when (.const (.bool test)) nothing timeout false
  ⟨"many", .toplevel, none, [],
    .list [waits false (some (.mk (.const (.interval (.ofInt 5))) (some nothing))),
      waits true none, .cond (.const (.bool true)) nothing (some nothing),
      .bodyList [fails, nothing], fails, nothing]⟩

/-- Two runs, with a pass between them and an expiry at the end. The first
`when` timed out once, the second fired once; two of the triggers still wait. -/
theorem coverage_consistent_manyForms :
    ∃ w past, History (· = Script.build manyForms 0) (w :: past) ∧
      (∀ s ∈ Script.stmtsOf [(manyForms, 0)], s.Fits w.counts) ∧
      (Script.stmtsOf [(manyForms, 0)]).map (fun s => w.journal.count s.id) =
        [2, 2, 0, 1, 2, 1, 2, 2, 0, 2, 2, 2, 2, 0] ∧ w.pendingCount = 2 := by
  let script := Script.build manyForms 0
  let w₀ := World.start default default
  let w₁ := ((HostOp.newFrame 0 none).perform 3).leaves w₀
  let w₂ := ((HostOp.run script ⟨0⟩).perform 3).leaves w₁
  let w₃ := (HostOp.checkAll.perform 3).leaves w₂
  let w₄ := ((HostOp.run script ⟨0⟩).perform 3).leaves w₃
  let w₅ := ((HostOp.expire ⟨9, 0, by decide⟩).perform 3).leaves w₄
  have h₁ : History (· = script) [w₁, w₀] :=
    (History.start _ _).perform (.newFrame 0 none) 3 trivial (by decide +kernel)
  have h₂ := h₁.perform (.run script ⟨0⟩) 3 rfl (by decide +kernel)
  have h₃ := h₂.perform .checkAll 3 trivial (by decide +kernel)
  have h₄ := h₃.perform (.run script ⟨0⟩) 3 rfl (by decide +kernel)
  have h₅ : History (· = script) [w₅, w₄, w₃, w₂, w₁, w₀] :=
    h₄.perform (.expire ⟨9, 0, by decide⟩) 3 trivial (by decide +kernel)
  have hcounts : (Script.stmtsOf [(manyForms, 0)]).map (fun s => w₅.journal.count s.id) =
    [2, 2, 0, 1, 2, 1, 2, 2, 0, 2, 2, 2, 2, 0] := by decide +kernel
  have hpending : w₅.pendingCount = 2 := by decide +kernel
  have hunits : ∀ s, s = script →
      s ∈ [(manyForms, 0)].map fun a : Doc.Unit × StmtId => Script.build a.1 a.2 :=
    fun s hs => List.mem_singleton.mpr hs
  exact ⟨w₅, _, h₅, coverage_consistent (by decide +kernel) hunits h₅, hcounts, hpending⟩

end World

end Vigil
