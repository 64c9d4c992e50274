import Vigil.Proofs.Trigger.Generations
import Vigil.Proofs.Trigger.Installs

/-!
# Vigil.Proofs.Trigger.Evaluations — the evaluations of a pass

A pass that returns is a sequence of evaluations, one after the other, with
nothing in between but the keeping of lists and counters (`Trace`). In each of
them one trigger that waits has its condition evaluated; where it holds, the
trigger is fired on the spot and its body runs at once (`Glance.Made`).

* `Turn.line` — triggers come up in the order in which they were created, in
  every history.
* `Trace.final`, `Trace.looks` — what a sequence of evaluations leaves behind.
* `checkBatches_trace` — which evaluations the batches of a pass make.
-/

namespace Vigil

variable {w₁ : World} {ts : List TriggerRef}

namespace World

variable {op : HostOp} {done : Prop} {p p' : Phase} {w w' : World} {t u : TriggerRef} {fuel : Nat}
  {w₂ : World} {f : FrameRef}

/-! ## The order of triggers -/

/-- Earlier triggers stand before later ones. -/
def ByAge (ts : List TriggerRef) : Prop := ts.Pairwise fun t u => t.idx < u.idx

theorem ByAge.nodup (h : ByAge ts) : ts.Nodup :=
  h.imp fun hlt heq => by
    subst heq
    exact Nat.lt_irrefl _ hlt

/-- The triggers listed, with those a pass has in hand between them: they come
up after what earlier batches put back, and before what was registered since.
What an expiry has in hand comes up no more. -/
def line : Phase → World → List TriggerRef
  | .pass seen todo, w => w.pending ++ (seen ++ todo) ++ w.fresh
  | .rest, w | .expiry _ _, w => w.pending ++ w.fresh

theorem line_subset_queue (p : Phase) (w : World) : line p w ⊆ queue p w := by
  cases p with
  | pass seen todo =>
    intro t ht
    simp only [line, queue, Phase.hand, List.mem_append] at ht ⊢
    tauto
  | rest => exact List.Subset.refl _
  | expiry now todo => exact List.subset_append_right _ _

theorem line_congr (p : Phase) (hpending : w'.pending = w.pending) (hfresh : w'.fresh = w.fresh) :
    line p w' = line p w := by
  cases p <;> simp only [line, hpending, hfresh]

theorem line_install (p : Phase) (w : World) (c : Captured) (deadline : Option Instant)
    (isReturn : Bool) (span : Span) :
    line p (w.install c deadline isReturn span) =
      line p w ++ if w.letsIn c then [w.nextTrigger] else [] := by
  rw [install_eq]
  cases p <;> simp only [line, List.append_assoc]

theorem line_next (seen todo : List TriggerRef) (t : TriggerRef) (w : World) :
    line (.pass (seen ++ [t]) todo) w = line (.pass seen (t :: todo)) w := by
  simp [line]

/-- A turn takes triggers out of the line, or puts a new one at its end. -/
theorem Turn.line (hr : Roster p w) (h : Turn op done (p, w) (p', w')) :
    (line p' w').Sublist (line p w) ∨ line p' w' = line p w ++ [w.nextTrigger] := by
  cases h with
  | step hstep =>
    rcases hstep.install_or with hsame | ⟨c, deadline, isReturn, span, rfl⟩
    · rw [line_congr p hsame.pending hsame.fresh]
      exact .inl (.refl _)
    · rw [line_install]
      split
      · exact .inr rfl
      · rw [List.append_nil]
        exact .inl (.refl _)
  | result | count => cases p <;> exact .inl (.refl _)
  | addFrame | clock | newSession => exact .inl (.refl _)
  | closeSession _ s =>
    obtain ⟨-, -, -, hpending, hfresh⟩ := closeSession_fields s w
    exact .inl (hpending.append hfresh)
  | cancelAll =>
    obtain ⟨trs, stats, heq, -⟩ := cancelAll_eq w
    rw [heq]
    exact .inl (List.nil_sublist _)
  | openPass =>
    have hline :
        World.line (.pass [] (w.pending ++ w.fresh)) { w with pending := [], fresh := [] } =
          World.line .rest w := by simp [World.line]
    rw [hline]
    exact .inl (.refl _)
  | skip seen todo u =>
    rw [line_next]
    exact .inl (.refl _)
  | @unmet seen todo u c _ w₁ r hpend hc heval hunmet =>
    have hsame := sameRoster_looked heval u false
    rw [line_next, line_congr _ hsame.pending hsame.fresh]
    exact .inl (.refl _)
  | @fires seen todo u c _ w₁ v hpend hc heval hv =>
    have hsame := sameRoster_looked heval u true
    have hline : World.line (.pass seen (u :: todo)) ((w₁.looked u true).concluded u .fired c) =
        World.line (.pass seen (u :: todo)) w := line_congr _ hsame.pending hsame.fresh
    rw [line_next, hline]
    exact .inl (.refl _)
  | endBatch seen =>
    rw [hr.endBatch_eq]
    left
    simp only [World.line, keepWaiting, List.nil_append, List.append_nil]
    exact (List.filter_sublist.append_left _).append_right _
  | openExpiry now => exact .inl (List.filter_sublist.append_right _)
  | ignore | timesOut => exact .inl (.refl _)
  | prune => exact .inl (List.filter_sublist.append List.filter_sublist)
  | drop =>
    left
    cases p with
    | pass seen todo => exact (List.sublist_append_left _ _).append_right _
    | rest | expiry => exact .refl _

theorem Turn.byAge (hr : Roster p w) (hl : ByAge (World.line p w))
    (h : Turn op done (p, w) (p', w')) : ByAge (World.line p' w') := by
  rcases h.line hr with hsub | hnew
  · exact List.Pairwise.sublist hsub hl
  · rw [hnew]
    refine List.pairwise_append.mpr ⟨hl, List.pairwise_singleton _ _, fun t ht u hu => ?_⟩
    rw [List.mem_singleton.mp hu]
    exact hr.created_of_queue (line_subset_queue p w ht)

/-- In every history, what is listed is listed in the order of its creation. -/
theorem Possible.byAge (hw : Possible w) : ByAge (w.pending ++ w.fresh) := by
  obtain ⟨now, limits, h⟩ := hw
  have hend := h.invariant (I := fun p w => ByAge (World.line p w))
    (fun _ _ _ _ _ _ hr hl hturn => hturn.byAge hr hl) (.start now limits) List.Pairwise.nil
  exact hend.2

/-! ## Newcomers -/

/-- The triggers let in on the way from `w` to `w'`, the earliest first. One
that was refused is cancelled. -/
def newcomers (w w' : World) : List TriggerRef :=
  ((List.range' w.triggers.size (w'.triggers.size - w.triggers.size)).map TriggerRef.mk).filter
    fun t => (w'.trigger t).state ≠ .cancelled

theorem mem_newcomers :
    t ∈ newcomers w w' ↔ ¬ w.Created t ∧ (w'.trigger t).state ≠ .cancelled := by
  have hrange : t ∈ (List.range' w.triggers.size (w'.triggers.size - w.triggers.size)).map
      TriggerRef.mk ↔ ¬ w.Created t ∧ w'.Created t := by
    unfold Created
    rw [List.mem_map]
    constructor
    · rintro ⟨i, hi, rfl⟩
      have := List.mem_range'_1.mp hi
      dsimp only
      omega
    · rintro ⟨hnot, hin⟩
      exact ⟨t.idx, List.mem_range'_1.mpr (by omega), rfl⟩
  unfold newcomers
  rw [List.mem_filter, hrange, decide_eq_true_iff]
  constructor
  · rintro ⟨⟨hnot, -⟩, hstate⟩
    exact ⟨hnot, hstate⟩
  · rintro ⟨hnot, hstate⟩
    refine ⟨⟨hnot, ?_⟩, hstate⟩
    by_contra hout
    rw [trigger_of_not_created hout] at hstate
    exact hstate rfl

theorem byAge_newcomers (w w' : World) : ByAge (newcomers w w') := by
  refine List.Pairwise.filter _ (List.pairwise_map.mpr ?_)
  exact List.pairwise_lt_range' 1

/-- Whether the triggers there are in `w` count as cancelled does not change. -/
def KeepsCancelled (w w' : World) : Prop :=
  ∀ t, w.Created t → ((w'.trigger t).state = .cancelled ↔ (w.trigger t).state = .cancelled)

theorem newcomers_trans (h₁ : w.triggers.size ≤ w₁.triggers.size)
    (h₂ : w₁.triggers.size ≤ w₂.triggers.size) (hkeeps : KeepsCancelled w₁ w₂) :
    newcomers w w₂ = newcomers w w₁ ++ newcomers w₁ w₂ := by
  have hlength : w₂.triggers.size - w.triggers.size =
      (w₁.triggers.size - w.triggers.size) + (w₂.triggers.size - w₁.triggers.size) := by omega
  have hmiddle : w.triggers.size + 1 * (w₁.triggers.size - w.triggers.size) =
      w₁.triggers.size := by omega
  unfold newcomers
  rw [hlength, ← List.range'_append, hmiddle, List.map_append, List.filter_append]
  refine congrArg (· ++ _) (List.filter_congr fun t ht => ?_)
  obtain ⟨i, hi, rfl⟩ := List.mem_map.mp ht
  have hcreated : w₁.Created ⟨i⟩ := by
    have := List.mem_range'_1.mp hi
    unfold Created
    dsimp only
    omega
  exact decide_eq_decide.mpr (not_congr (hkeeps _ hcreated))

theorem newcomers_of_size (h : w'.triggers.size = w.triggers.size) : newcomers w w' = [] := by
  unfold newcomers
  rw [h, Nat.sub_self]
  rfl

/-- What running bodies does to the lists and to the count of registrations. -/
structure Gains (w w' : World) : Prop where
  size : w.triggers.size ≤ w'.triggers.size
  keeps : KeepsCancelled w w'
  pending : w'.pending = w.pending
  fresh : w'.fresh = w.fresh ++ newcomers w w'
  registered : w'.stats.registered = w.stats.registered + (newcomers w w').length

/-- Nothing new. -/
theorem Gains.of_size (hsize : w'.triggers.size = w.triggers.size) (hkeeps : KeepsCancelled w w')
    (hpending : w'.pending = w.pending) (hfresh : w'.fresh = w.fresh)
    (hregistered : w'.stats.registered = w.stats.registered) : Gains w w' where
  size := Nat.le_of_eq hsize.symm
  keeps := hkeeps
  pending := hpending
  fresh := by rw [hfresh, newcomers_of_size hsize, List.append_nil]
  registered := by rw [hregistered, newcomers_of_size hsize]; rfl

theorem Gains.of_triggers (htriggers : w'.triggers = w.triggers) (hpending : w'.pending = w.pending)
    (hfresh : w'.fresh = w.fresh) (hregistered : w'.stats.registered = w.stats.registered) :
    Gains w w' := by
  refine .of_size (by rw [htriggers]) (fun t _ => ?_) hpending hfresh hregistered
  unfold trigger
  rw [htriggers]

theorem Gains.trans (h : Gains w w₁) (h' : Gains w₁ w₂) : Gains w w₂ where
  size := Nat.le_trans h.size h'.size
  keeps t ht := (h'.keeps t (Nat.lt_of_lt_of_le ht h.size)).trans (h.keeps t ht)
  pending := h'.pending.trans h.pending
  fresh := by
    rw [h'.fresh, h.fresh, newcomers_trans h.size h'.size h'.keeps, List.append_assoc]
  registered := by
    rw [h'.registered, h.registered, newcomers_trans h.size h'.size h'.keeps, List.length_append,
      Nat.add_assoc]

theorem Gains.install (w : World) (c : Captured) (deadline : Option Instant) (isReturn : Bool)
    (span : Span) : Gains w (w.install c deadline isReturn span) := by
  have htriggers : (w.install c deadline isReturn span).triggers =
      w.triggers.push (w.installed c deadline isReturn span) := by rw [install_eq]
  have hsize : (w.install c deadline isReturn span).triggers.size = w.triggers.size + 1 := by
    rw [htriggers, Array.size_push]
  have hnew : newcomers w (w.install c deadline isReturn span) =
      if w.letsIn c then [w.nextTrigger] else [] := by
    have hself : (w.install c deadline isReturn span).trigger ⟨w.triggers.size⟩ =
        w.installed c deadline isReturn span := trigger_push_self htriggers
    unfold newcomers
    rw [hsize, Nat.add_sub_cancel_left, List.range'_one, List.map_singleton, List.filter_singleton,
      hself]
    unfold installed nextTrigger
    by_cases hin : w.letsIn c <;> simp [hin]
  refine ⟨by omega, fun t ht => ?_, by rw [install_eq], ?_, ?_⟩
  · rw [trigger_push_of_ne htriggers (ne_nextTrigger ht)]
  · rw [hnew, install_eq]
  · rw [hnew, install_eq]
    by_cases hin : w.letsIn c <;> simp [hin]

theorem Gains.steps (h : Relation.ReflTransGen (Step f) w w') : Gains w w' := by
  induction h with
  | refl => exact .of_triggers rfl rfl rfl rfl
  | tail _ hstep ih =>
    refine ih.trans ?_
    cases hstep with
    | install c deadline isReturn span hf => exact .install _ c deadline isReturn span
    | _ => exact .of_triggers rfl rfl rfl rfl

/-! ## One evaluation -/

/-- A body that ran, whatever became of it, went by steps; then its value may
be kept. -/
theorem runBody_steps {body : Stmt} (h : (runBody fuel t f body).runFrom w = (.ok (), w')) :
    ∃ w₁, Relation.ReflTransGen (Step f) w w₁ ∧
      (w' = w₁ ∨ ∃ v, w' = w₁.modifyTrigger t fun tr => { tr with result := v }) := by
  obtain ⟨r, w₁, hx, -, hkept⟩ := runBody_apart h
  exact ⟨w₁, (Stmt.exec_moves fuel f body).steps hx, hkept⟩

end World

/-- A trigger is looked at in a pass: what came of it, and the worlds before
its condition is evaluated and after its body ran. -/
structure Glance where
  trigger : TriggerRef
  held : Bool
  before : World
  after : World

/-- The look that a note is about. -/
def Entry.look? : Entry → Option (TriggerRef × Bool)
  | .look t held => some (t, held)
  | .start .. | .body .. | .defer .. => none

open World

/-- What is done in it. -/
inductive Glance.Made (fuel : Nat) : Glance → Prop where
  /-- The condition is zero or fails, and the trigger goes on waiting. -/
  | unmet {t c w w₁ r}
      (hpend : (w.trigger t).state = .pending) (hc : (w.trigger t).captured = some c)
      (heval : (c.cond.eval c.frame).runFrom w = (r, w₁)) (hr : Unmet r) :
      Made fuel ⟨t, false, w, w₁.looked t false⟩
  /-- The condition is not zero: the trigger is fired, and then its body runs. -/
  | fires {t c w w₁ w₂ v}
      (hpend : (w.trigger t).state = .pending) (hc : (w.trigger t).captured = some c)
      (heval : (c.cond.eval c.frame).runFrom w = (.ok v, w₁)) (hv : v.isZero = false)
      (hbody : (runBody fuel t c.frame c.body).runFrom ((w₁.looked t true).concluded t .fired c) =
        (.ok (), w₂)) :
      Made fuel ⟨t, true, w, w₂⟩

namespace Glance

/-- A look at a trigger that waits. -/
theorem made_of_check {fuel : Nat} {t : TriggerRef} {w w' : World} {c : Captured}
    {state : TriggerState} (hpend : (w.trigger t).state = .pending)
    (hc : (w.trigger t).captured = some c)
    (h : (check fuel t).runFrom w = (.ok state, w')) : ∃ held, Made fuel ⟨t, held, w, w'⟩ := by
  rw [runFrom_check fuel hpend hc, runFrom_holds] at h
  rcases heval : (c.cond.eval c.frame).runFrom w with ⟨(e | e | _) | v, w₁⟩
  all_goals rw [heval] at h
  · cases h
    exact ⟨false, .unmet hpend hc heval trivial⟩
  · cases h
  · cases h
  · dsimp only at h
    cases hv : v.isZero with
    | true =>
      rw [hv] at h
      cases h
      exact ⟨false, .unmet hpend hc heval hv⟩
    | false =>
      rw [hv, Bool.not_false] at h
      dsimp only at h
      have hsettle : (settle fuel t .fired c).runFrom (w₁.looked t true) =
          (runBody fuel t c.frame c.body).runFrom ((w₁.looked t true).concluded t .fired c) :=
        runFrom_settle fuel t (w₁.looked t true) .fired c
      rw [hsettle] at h
      rcases hbody : (runBody fuel t c.frame c.body).runFrom
        ((w₁.looked t true).concluded t .fired c) with ⟨s | _, w₂⟩
      · rw [hbody] at h
        cases h
      · rw [hbody] at h
        cases h
        exact ⟨true, .fires hpend hc heval hv hbody⟩

variable {fuel : Nat} {g : Glance}

/-- The trigger has fired or waits on, and has done so when it comes to the
next one. The others are what they were. -/
theorem Made.triggers (h : g.Made fuel) :
    (g.after.trigger g.trigger).state = (if g.held then .fired else .pending) ∧
      ∀ u, u ≠ g.trigger → g.before.Created u → g.after.trigger u = g.before.trigger u := by
  cases h with
  | @unmet t c w w₁ r hpend hc heval hr =>
    obtain ⟨heap, slots, rfl⟩ := eval_leaves heval
    exact ⟨hpend, fun _ _ _ => rfl⟩
  | @fires t c w w₁ w₂ v hpend hc heval hv hbody =>
    obtain ⟨heap, slots, rfl⟩ := eval_leaves heval
    set w₁ := (w.withStore c.frame heap slots).looked t true
    have hcreated : w₁.Created t := created_of_pending hpend
    exact trigger_settle hcreated ((runFrom_settle fuel t w₁ .fired c).trans hbody)

theorem Made.gains (h : g.Made fuel) : Gains g.before g.after := by
  cases h with
  | @unmet t c w w₁ r hpend hc heval hr =>
    obtain ⟨heap, slots, rfl⟩ := eval_leaves heval
    exact .of_triggers rfl rfl rfl rfl
  | @fires t c w w₁ w₂ v hpend hc heval hv hbody =>
    obtain ⟨heap, slots, rfl⟩ := eval_leaves heval
    set w₁ := (w.withStore c.frame heap slots).looked t true
    have hcreated : w₁.Created t := created_of_pending hpend
    have hfired : Gains w (w₁.concluded t .fired c) := by
      refine .of_size (size_concluded .fired c) (fun u _ => ?_) rfl rfl rfl
      by_cases hu : u = t
      · subst hu
        rw [trigger_concluded_self .fired c hcreated, hpend]
        simp
      · rw [trigger_concluded_of_ne .fired c hu]
        rfl
    obtain ⟨w₃, hsteps, rfl | ⟨value, rfl⟩⟩ := runBody_steps hbody
    · exact hfired.trans (.steps hsteps)
    · refine (hfired.trans (.steps hsteps)).trans ?_
      refine .of_size Array.size_modify (fun u _ => ?_) rfl rfl rfl
      obtain ⟨r, hr⟩ := trigger_modifyTrigger_result w₃ t u value
      rw [hr]

/-- Of the looks, the journal notes the one that was made. -/
theorem Made.looks (h : g.Made fuel) :
    ∃ notes, g.after.journal = notes ++ g.before.journal ∧
      notes.filterMap Entry.look? = [(g.trigger, g.held)] := by
  cases h with
  | @unmet t c w w₁ r hpend hc heval hr =>
    obtain ⟨heap, slots, rfl⟩ := eval_leaves heval
    exact ⟨[.look t false], rfl, rfl⟩
  | @fires t c w w₁ w₂ v hpend hc heval hv hbody =>
    obtain ⟨heap, slots, rfl⟩ := eval_leaves heval
    obtain ⟨w₃, hsteps, hw₂⟩ := runBody_steps hbody
    have hjournal : w₂.journal = w₃.journal := by
      rcases hw₂ with rfl | ⟨value, rfl⟩ <;> rfl
    -- the body adds notes of its own, none of them about a look
    obtain ⟨heap', frames, a, rfl, ha, -⟩ := onlyAdds_of_steps hsteps
    have hnone : a.notes.filterMap Entry.look? = [] := by
      rw [List.filterMap_eq_nil_iff]
      intro e he
      cases e with
      | look u held => exact absurd rfl (ha.notes _ he u)
      | _ => rfl
    refine ⟨a.notes ++ [.body t .fired c.body, .look t true], ?_, ?_⟩
    · rw [List.append_assoc]
      exact hjournal
    · rw [List.filterMap_append, hnone]
      rfl

end Glance

/-! ## Sequences of evaluations -/

namespace World

variable {w w' : World} {t : TriggerRef} {fuel : Nat} {gs gs' : List Glance}

/-- The worlds differ in the lists and in the count of those that fired, if at
all. -/
def Between (w w' : World) : Prop :=
  ∃ pending fresh fired,
    w' = { w with pending := pending, fresh := fresh, stats := { w.stats with fired := fired } }

theorem Between.trans {w'' : World} (h : Between w w') (h' : Between w' w'') : Between w w'' := by
  obtain ⟨_, _, _, rfl⟩ := h
  obtain ⟨pending, fresh, fired, rfl⟩ := h'
  exact ⟨pending, fresh, fired, rfl⟩

theorem Between.trigger_eq (h : Between w w') (t : TriggerRef) : w'.trigger t = w.trigger t := by
  obtain ⟨_, _, _, rfl⟩ := h
  rfl

theorem Between.triggers_eq (h : Between w w') : w'.triggers = w.triggers := by
  obtain ⟨_, _, _, rfl⟩ := h
  rfl

theorem Between.journal_eq (h : Between w w') : w'.journal = w.journal := by
  obtain ⟨_, _, _, rfl⟩ := h
  rfl

/-- One evaluation after the other leads from `w` to `w'`. -/
inductive Trace (fuel : Nat) : World → List Glance → World → Prop where
  | done {w w' : World} (h : Between w w') : Trace fuel w [] w'
  | look {w w' g gs} (h : Between w g.before) (hg : g.Made fuel)
      (hrest : Trace fuel g.after gs w') : Trace fuel w (g :: gs) w'

theorem Trace.before {w₀ : World} (h : Between w₀ w) (ht : Trace fuel w gs w') :
    Trace fuel w₀ gs w' := by
  cases ht with
  | done h' => exact .done (h.trans h')
  | look h' hg hrest => exact .look (h.trans h') hg hrest

theorem Trace.append (h : Trace fuel w gs w₁) (h' : Trace fuel w₁ gs' w') :
    Trace fuel w (gs ++ gs') w' := by
  induction h with
  | done hbetween => exact h'.before hbetween
  | look hbetween hg _ ih => exact .look hbetween hg (ih h')

/-- A trigger that is not looked at stays as it is. -/
theorem Trace.trigger_of_not_mem (h : Trace fuel w gs w') (ht : w.Created t)
    (hnot : t ∉ gs.map Glance.trigger) : w'.trigger t = w.trigger t := by
  induction h with
  | done hbetween => exact hbetween.trigger_eq t
  | @look w w' g gs hbetween hg _ ih =>
    rw [List.map_cons, List.mem_cons, not_or] at hnot
    have hcreated : g.before.Created t := by
      unfold Created
      rw [hbetween.triggers_eq]
      exact ht
    have hafter : g.after.Created t := Nat.lt_of_lt_of_le hcreated hg.gains.size
    rw [ih hafter hnot.2, hg.triggers.2 t hnot.1 hcreated, hbetween.trigger_eq]

/-- Where each trigger is looked at once, those whose condition held have fired
and the others still wait. -/
theorem Trace.final (h : Trace fuel w gs w') (hnodup : (gs.map Glance.trigger).Nodup) :
    ∀ g ∈ gs, (w'.trigger g.trigger).state = if g.held then .fired else .pending := by
  induction h with
  | done => exact fun g hg => by cases hg
  | @look w w' g gs hbetween hg hrest ih =>
    rw [List.map_cons, List.nodup_cons] at hnodup
    intro g' hg'
    rcases List.mem_cons.mp hg' with rfl | hlater
    · have hcreated : g'.after.Created g'.trigger := by
        by_contra hout
        have hstate := hg.triggers.1
        rw [trigger_of_not_created hout] at hstate
        cases hheld : g'.held <;> rw [hheld] at hstate <;> cases hstate
      rw [hrest.trigger_of_not_mem hcreated hnodup.1]
      exact hg.triggers.1
    · exact ih hnodup.2 g' hlater

/-- The journal notes these looks and no other. -/
theorem Trace.looks (h : Trace fuel w gs w') :
    ∃ notes, w'.journal = notes ++ w.journal ∧
      notes.filterMap Entry.look? = (gs.map fun g => (g.trigger, g.held)).reverse := by
  induction h with
  | done hbetween => exact ⟨[], hbetween.journal_eq, rfl⟩
  | @look w w' g gs hbetween hg _ ih =>
    obtain ⟨first, hfirst, hlook⟩ := hg.looks
    obtain ⟨later, hlater, hlooks⟩ := ih
    refine ⟨later ++ first, ?_, ?_⟩
    · rw [hlater, hfirst, hbetween.journal_eq, List.append_assoc]
    · rw [List.filterMap_append, hlooks, hlook, List.map_cons, List.reverse_cons]

/-! ## Passes -/

theorem counted_between (state : TriggerState) (w : World) : Between w (w.counted state) := by
  unfold counted
  split
  · exact ⟨_, _, _, rfl⟩
  · exact ⟨_, _, _, rfl⟩

theorem counted_gains (state : TriggerState) (w : World) : Gains w (w.counted state) := by
  unfold counted
  split <;> exact .of_triggers rfl rfl rfl rfl

/-- A batch of triggers that wait is looked at from first to last. -/
theorem checkEach_trace (hnodup : ts.Nodup)
    (hwaits : ∀ t ∈ ts, (w.trigger t).state = .pending ∧ (w.trigger t).captured.isSome)
    (h : (checkEach fuel ts).runFrom w = (.ok (), w')) :
    ∃ gs, gs.map Glance.trigger = ts ∧ Trace fuel w gs w' ∧ Gains w w' := by
  induction ts generalizing w with
  | nil =>
    cases h
    exact ⟨[], rfl, .done ⟨_, _, _, rfl⟩, .of_triggers rfl rfl rfl rfl⟩
  | cons t ts ih =>
    obtain ⟨hnot, hnodup⟩ := List.nodup_cons.mp hnodup
    obtain ⟨hpend, hsome⟩ := hwaits t List.mem_cons_self
    obtain ⟨c, hc⟩ := Option.isSome_iff_exists.mp hsome
    rw [runFrom_checkEach_cons] at h
    rcases hcheck : (check fuel t).runFrom w with ⟨s | state, w₁⟩
    · rw [hcheck] at h
      cases h
    · rw [hcheck] at h
      obtain ⟨held, hmade⟩ := Glance.made_of_check hpend hc hcheck
      have hbetween := counted_between state w₁
      -- those after it are what they were before
      have hrest : ∀ u ∈ ts, ((w₁.counted state).trigger u).state = .pending ∧
          ((w₁.counted state).trigger u).captured.isSome := by
        intro u hu
        have hold := hwaits u (List.mem_cons_of_mem t hu)
        have hne : u ≠ t := fun heq => hnot (heq ▸ hu)
        rw [hbetween.trigger_eq, hmade.triggers.2 u hne (created_of_pending hold.1)]
        exact hold
      obtain ⟨gs, hgs, htrace, hgains⟩ := ih hnodup hrest h
      refine ⟨⟨t, held, w, w₁⟩ :: gs, ?_, ?_, ?_⟩
      · rw [List.map_cons, hgs]
      · exact .look ⟨_, _, _, rfl⟩ hmade (htrace.before hbetween)
      · exact (hmade.gains.trans (counted_gains state w₁)).trans hgains

/-- What becomes of a batch in hand, and of all that is let in meanwhile. -/
structure Passed (fuel : Nat) (w : World) (batch : List TriggerRef) (gs : List Glance)
    (w' : World) : Prop where
  trace : Trace fuel w gs w'
  triggers : gs.map Glance.trigger = batch ++ newcomers w w'
  size : w.triggers.size ≤ w'.triggers.size
  keeps : KeepsCancelled w w'
  registered : w'.stats.registered = w.stats.registered + (newcomers w w').length
  fresh : w'.fresh = []
  pending : w'.pending = w.pending ++ (gs.filter fun g => !g.held).map Glance.trigger

theorem Passed.nil (hfresh : w.fresh = []) : Passed fuel w [] [] w := by
  have hnone : newcomers w w = [] := newcomers_of_size rfl
  refine ⟨.done ⟨_, _, _, rfl⟩, hnone.symm, Nat.le_refl _, fun _ _ => .rfl, ?_, hfresh,
    (List.append_nil _).symm⟩
  rw [hnone]
  rfl

/-- Those of a batch that still wait are those whose condition did not hold. -/
theorem filter_waits (h : Trace fuel w gs w') (hnodup : (gs.map Glance.trigger).Nodup) :
    (gs.map Glance.trigger).filter (fun t => !(w'.trigger t).state.isTerminal) =
      (gs.filter fun g => !g.held).map Glance.trigger := by
  rw [List.filter_map]
  refine congrArg _ (List.filter_congr fun g hg => ?_)
  rw [Function.comp_apply, h.final hnodup g hg]
  cases g.held <;> rfl

/-- One batch after another. The next one is what was let in during the first,
and what still waits of the first is listed. -/
theorem Passed.batch (hfresh : w.fresh = []) (htrace : Trace fuel w gs w₁) (hgains : Gains w w₁)
    (hnodup : (gs.map Glance.trigger).Nodup)
    (h : Passed fuel { keepWaiting (gs.map Glance.trigger) w₁ with fresh := [] } w₁.fresh gs' w') :
    Passed fuel w (gs.map Glance.trigger) (gs ++ gs') w' := by
  set w₂ : World := { keepWaiting (gs.map Glance.trigger) w₁ with fresh := [] }
  have hbetween : Between w₁ w₂ := ⟨_, _, _, rfl⟩
  have hstats : w₂.stats = w₁.stats := rfl
  have hlisted : w₂.pending = w₁.pending ++
    (gs.map Glance.trigger).filter fun t => !(w₁.trigger t).state.isTerminal := rfl
  have hnew : w₁.fresh = newcomers w w₁ := by rw [hgains.fresh, hfresh, List.nil_append]
  have hnewcomers : newcomers w w' = newcomers w w₁ ++ newcomers w₂ w' :=
    newcomers_trans hgains.size h.size h.keeps
  refine ⟨htrace.append (h.trace.before hbetween), ?_, Nat.le_trans hgains.size h.size,
    fun t ht => ?_, ?_, h.fresh, ?_⟩
  · rw [List.map_append, h.triggers, hnewcomers, hnew]
  · exact (h.keeps t (Nat.lt_of_lt_of_le ht hgains.size)).trans (hgains.keeps t ht)
  · rw [h.registered, hstats, hgains.registered, hnewcomers, List.length_append, Nat.add_assoc]
  · rw [h.pending, hlisted, filter_waits htrace hnodup, hgains.pending, List.filter_append,
      List.map_append, List.append_assoc]

theorem checkBatches_trace {batch : List TriggerRef} {rounds : Nat}
    (hr : Roster (.pass [] batch) w) (hwaits : ∀ t ∈ batch, (w.trigger t).state = .pending)
    (hfresh : w.fresh = []) (h : (checkBatches fuel rounds batch).runFrom w = (.ok (), w')) :
    ∃ gs, Passed fuel w batch gs w' := by
  induction rounds generalizing batch w with
  | zero =>
    cases batch with
    | nil =>
      cases h
      exact ⟨[], .nil hfresh⟩
    | cons t rest => cases h
  | succ rounds ih =>
    by_cases hne : batch = []
    · subst hne
      cases h
      exact ⟨[], .nil hfresh⟩
    · rw [runFrom_checkBatches_succ fuel rounds hne] at h
      rcases heach : (checkEach fuel batch).runFrom w with ⟨s | _, w₁⟩
      · rw [heach] at h
        cases h
      · rw [heach] at h
        have hnodup : batch.Nodup := (List.nodup_append.mp hr.nodup).1
        obtain ⟨gs, rfl, htrace, hgains⟩ := checkEach_trace hnodup
          (fun t ht => ⟨hwaits t ht, (hr.holds t).isSome_iff.mp (hwaits t ht)⟩) heach
        obtain ⟨hend, hlisted, hr₁⟩ := hr.batch heach
        dsimp only at h
        rw [hend] at h
        obtain ⟨gs', hpassed⟩ := ih hr₁ hlisted rfl h
        exact ⟨gs ++ gs', .batch hfresh htrace hgains hnodup hpassed⟩

/-- A pass that returns evaluates the condition of every trigger that waits at
its start, and of every one let in meanwhile, exactly once and in the order of
their registration; the journal notes these looks and no others. A trigger
whose condition held has fired, and its body has run before the next condition
is evaluated. The others are what is listed afterwards, in the same order. -/
theorem pass_evaluates_each_once (hw : Possible w)
    (h : (checkAll fuel).runFrom w = (.ok (), w')) :
    ∃ gs : List Glance, Trace fuel w gs w' ∧
      gs.map Glance.trigger = w.pending ++ w.fresh ++ newcomers w w' ∧
      ByAge (gs.map Glance.trigger) ∧
      w'.stats.registered = w.stats.registered + (newcomers w w').length ∧
      (∃ notes, w'.journal = notes ++ w.journal ∧
        notes.filterMap Entry.look? = (gs.map fun g => (g.trigger, g.held)).reverse) ∧
      (∀ g ∈ gs, (w'.trigger g.trigger).state = if g.held then .fired else .pending) ∧
      w'.fresh = [] ∧ w'.pending = (gs.filter fun g => !g.held).map Glance.trigger := by
  obtain ⟨gs, hpassed⟩ := checkBatches_trace hw.roster.openPass hw.roster.listed rfl h
  have htrace : Trace fuel w gs w' := hpassed.trace.before ⟨_, _, _, rfl⟩
  have horder : ByAge (gs.map Glance.trigger) := by
    rw [hpassed.triggers]
    refine List.pairwise_append.mpr ⟨hw.byAge, byAge_newcomers _ _, fun t ht u hu => ?_⟩
    have hold : w.Created t := created_of_pending (hw.roster.listed t ht)
    have hnew : ¬ w.Created u := (mem_newcomers.mp hu).1
    exact Nat.lt_of_lt_of_le hold (Nat.le_of_not_lt hnew)
  exact ⟨gs, htrace, hpassed.triggers, horder, hpassed.registered, htrace.looks,
    htrace.final horder.nodup, hpassed.fresh, hpassed.pending⟩

/-- A trigger fires and its body adds another, which fires in the same pass. -/
theorem pass_evaluates_each_once_nested :
    ∃ w w' : World, Possible w ∧ (checkAll 2).runFrom w = (.ok (), w') ∧
      w.pending ++ w.fresh = [⟨0⟩] ∧ newcomers w w' = [⟨1⟩] ∧
      ∃ gs, Trace 2 w gs w' ∧ gs.map Glance.trigger = [⟨0⟩, ⟨1⟩] ∧
        w'.pending = (gs.filter fun g => !g.held).map Glance.trigger := by
  let w₁ : World := (HostOp.perform 0 (.newFrame 0 none)).leaves (.start default default)
  let w : World := (HostOp.perform 1 (.run nestedWhens ⟨0⟩)).leaves w₁
  have hw : Possible w :=
    ⟨default, default, (Ever.perform .refl (.newFrame 0 none) 0).perform (.run nestedWhens ⟨0⟩) 1⟩
  have hok : ((checkAll 2).runFrom w).1.isOk := by decide +kernel
  have hlists : w.pending ++ w.fresh = [⟨0⟩] := by decide +kernel
  have hnew : newcomers w ((checkAll 2).leaves w) = [⟨1⟩] := by decide +kernel
  have hrun := Exec.runFrom_of_isOk hok
  obtain ⟨gs, htrace, htriggers, -, -, -, -, -, hpending⟩ := pass_evaluates_each_once hw hrun
  rw [hlists, hnew] at htriggers
  exact ⟨w, _, hw, hrun, hlists, hnew, gs, htrace, htriggers, hpending⟩

end World

end Vigil
