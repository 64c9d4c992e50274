import Vigil.Proofs.Trigger.Fates

/-!
# Vigil.Proofs.Trigger.LifeCycle — the life of a trigger

A trigger waits, then reaches one final state, and stays there. As long as no
operation breaks off, every turn keeps all triggers that wait in hand or in the
lists (`Ledger`), and no turn undoes anything (`Onward`). So at any point of a
history a trigger that waits is listed once and holds what it needs, and one that
does not is listed nowhere and has started no body but the one of its state: the
success body if it fired, and the timeout body if it timed out.
-/

namespace Vigil

/-- What a trigger created with `c` has started in this state: each body goes with
one state, and only the timeout body may be missing. -/
def TriggerState.Ran (c : Captured) : TriggerState → List (TriggerState × Stmt) → Prop
  | .pending, ran | .cancelled, ran => ran = []
  | .fired, ran => ran = [(.fired, c.body)]
  | .timedOut, ran => ran = c.timeoutBody.toList.map fun s => (.timedOut, s)

namespace World

variable {op : HostOp} {done : Prop} {p p' : Phase} {w w' : World} {t : TriggerRef}

/-! ## What no turn undoes -/

/-- What no operation undoes. -/
structure Onward (w w' : World) : Prop where
  created : ∀ t, w.Created t → w'.Created t
  state : ∀ t, w.Created t → (w.trigger t).state.isTerminal →
    (w'.trigger t).state = (w.trigger t).state
  ran : ∀ t, w.Created t → (w.trigger t).state.isTerminal → w'.bodiesRun t = w.bodiesRun t
  origin : ∀ t, w.Created t → (w'.trigger t).origin = (w.trigger t).origin

theorem Onward.refl (w : World) : Onward w w :=
  ⟨fun _ h => h, fun _ _ _ => rfl, fun _ _ _ => rfl, fun _ _ => rfl⟩

theorem Onward.trans {w₁ w₂ w₃ : World} (h : Onward w₁ w₂) (h' : Onward w₂ w₃) :
    Onward w₁ w₃ where
  created t ht := h'.created t (h.created t ht)
  state t ht hs := by
    have hs₂ : (w₂.trigger t).state.isTerminal := by rw [h.state t ht hs]; exact hs
    rw [h'.state t (h.created t ht) hs₂, h.state t ht hs]
  ran t ht hs := by
    have hs₂ : (w₂.trigger t).state.isTerminal := by rw [h.state t ht hs]; exact hs
    rw [h'.ran t (h.created t ht) hs₂, h.ran t ht hs]
  origin t ht := (h'.origin t (h.created t ht)).trans (h.origin t ht)

/-- What a turn does to a trigger in a final state. -/
theorem Turn.passesBy (hr : Roster p w) (h : Turn op done (p, w) (p', w'))
    (hs : (w.trigger t).state.isTerminal) : PassesBy t w w' := by
  have hnot := isTerminal_iff.mp hs
  cases h.fares hr t with
  | passed hpass => exact hpass
  | unmet _ hpend | fires _ hpend | timesOut _ hpend | cancelled hpend => exact absurd hpend hnot

theorem Turn.onward (hr : Roster p w) (h : Turn op done (p, w) (p', w')) : Onward w w' where
  created _ ht := (h.remains hr ht).created
  state _ ht hs := (h.passesBy hr hs).state_eq ht
  ran _ _ hs := (h.passesBy hr hs).bodiesRun_eq
  origin _ ht := (h.remains hr ht).origin

theorem Turns.onward (hr : Roster p w) (h : Turns op done (p, w) (p', w')) : Onward w w' :=
  (h.invariant (I := fun _ v => Onward w v) (fun _ _ _ _ hr ho hturn => ho.trans (hturn.onward hr))
    hr (.refl w)).2

theorem checkEach_onward {fuel : Nat} {seen ts : List TriggerRef} (hr : Roster (.pass seen ts) w)
    (h : (checkEach fuel ts).runFrom w = (.ok (), w')) : Onward w w' := by
  have heach : Arrives .checkAll True (.pass seen ts, w) (.pass (seen ++ ts) []) _ :=
    h ▸ checkEach_turns seen ts
  exact heach.ok.onward hr

/-! ## The ledger -/

/-- All that waits is in hand or listed, and what triggers have started goes with
their states. -/
structure Ledger (p : Phase) (w : World) : Prop extends Roster p w where
  ran : ∀ t, (w.trigger t).state.Ran (w.trigger t).origin (w.bodiesRun t)
  waits : ∀ t, (w.trigger t).state = .pending → t ∈ queue p w

theorem Ledger.start (now : Instant) (limits : Limits) : Ledger .rest (.start now limits) where
  toRoster := .start now limits
  ran t := by simp [World.start, trigger, default, TriggerState.Ran, bodiesRun]
  waits t h := by simp [World.start, trigger, default] at h

/-- What has started nothing yet, whatever it was created with. -/
theorem ran_nil {state : TriggerState} {c : Captured} (h : state = .pending ∨ state = .cancelled)
    {ran : List (TriggerState × Stmt)} : state.Ran c ran ↔ ran = [] := by
  rcases h with rfl | rfl <;> rfl

/-- A trigger starts only the body of the state that it reaches. -/
theorem Turn.ran (hr : Roster p w) (h : Turn op done (p, w) (p', w'))
    (hran : (w.trigger t).state.Ran (w.trigger t).origin (w.bodiesRun t)) :
    (w'.trigger t).state.Ran (w'.trigger t).origin (w'.bodiesRun t) := by
  have hnone : (w.trigger t).state = .pending → w.bodiesRun t = [] := by
    intro hpend
    rwa [hpend] at hran
  -- what it was created with is what it holds when it leaves the pending state
  have horigin : ∀ {c}, (w.trigger t).state = .pending → (w.trigger t).captured = some c →
      (w'.trigger t).origin = c := fun hpend hc =>
    (h.remains hr (created_of_pending hpend)).origin.trans ((hr.holds t).origin_eq hc)
  have hself : ∀ state s, Entry.bodyOf? t (.body t state s) = some (state, s) :=
    fun _ _ => if_pos rfl
  cases h.fares hr t with
  | passed hpass =>
    rw [hpass.bodiesRun_eq]
    by_cases ht : w.Created t
    · rwa [hpass.state_eq ht, (h.remains hr ht).origin]
    · -- a reference nobody created reads as a cancelled trigger, which ran nothing
      rw [trigger_of_not_created ht] at hran
      refine (ran_nil ?_).mpr hran
      rcases hpass.state with hsame | ⟨-, hpend⟩
      · rw [hsame, trigger_of_not_created ht]
        exact .inr rfl
      · exact .inl hpend
  | unmet _ hpend hstate hjournal =>
    rw [hstate, bodiesRun, hjournal]
    exact hnone hpend
  | fires _ hpend hstate hc hjournal =>
    rw [hstate, horigin hpend hc, bodiesRun, hjournal, List.filterMap_cons_some (hself _ _),
      List.filterMap_cons_none rfl]
    exact congrArg (_ :: ·) (hnone hpend)
  | timesOut _ hpend hstate hc hjournal =>
    rw [hstate, horigin hpend hc, bodiesRun, hjournal, List.filterMap_append, List.filterMap_map]
    refine (congrArg (_ ++ ·) (hnone hpend)).trans ?_
    simp [hself, List.filterMap_eq_map']
  | cancelled hpend hstate hjournal =>
    rw [hstate, bodiesRun, hjournal]
    exact hnone hpend

/-- Unless an operation breaks off, no trigger that waits is lost. -/
theorem Turn.waits (hr : Roster p w)
    (hw : ∀ t, (w.trigger t).state = .pending → t ∈ World.queue p w) (hdone : done)
    (h : Turn op done (p, w) (p', w')) (hpend : (w'.trigger t).state = .pending) :
    t ∈ World.queue p' w' := by
  cases h with
  | step hstep =>
    rcases hstep.install_or with hsame | ⟨c, deadline, isReturn, span, rfl⟩
    · rw [hsame.queue]
      rw [hsame.state] at hpend
      exact hw t hpend
    · rw [install_queue, List.mem_append]
      by_cases ht : t = w.nextTrigger
      · rw [ht, trigger_push_self (by rw [install_eq])] at hpend
        by_cases hin : w.letsIn c
        · simp [ht, hin]
        · simp [installed, hin] at hpend
      · rw [trigger_push_of_ne (by rw [install_eq]) ht] at hpend
        exact .inl (hw t hpend)
  | result _ _ u v =>
    rw [(sameRoster_result w u v).state] at hpend
    exact hw t hpend
  | count | addFrame | clock | newSession => exact hw t hpend
  | closeSession _ s =>
    rcases hr.closeSession_lists s with ⟨hpending, hfresh⟩
    rw [hr.trigger_closeSession] at hpend
    split at hpend
    · cases hpend
    · rename_i hkept
      have hmem : t ∈ w.pending ++ w.fresh := hw t hpend
      rw [World.queue, hpending, hfresh, ← List.filter_append]
      exact List.mem_filter.mpr ⟨hmem, bne_iff_ne.mpr fun hs => hkept ⟨hmem, hs, hpend⟩⟩
  | cancelAll =>
    rw [trigger_cancelAll] at hpend
    split at hpend
    · cases hpend
    · rename_i hkept
      exact absurd ⟨hw t hpend, hpend⟩ hkept
  | openPass => simpa [World.queue, Phase.hand] using hw t hpend
  | skip seen todo u =>
    rw [queue_next]
    exact hw t hpend
  | @unmet seen todo u c _ w₁ r _ hc heval hunmet =>
    have hsame := sameRoster_looked heval u false
    rw [hsame.state] at hpend
    rw [queue_next, hsame.queue]
    exact hw t hpend
  | @fires seen todo u c _ w₁ v hpend' hc heval hv =>
    have hsame := sameRoster_looked heval u true
    have hcreated := (hsame.remains (created_of_pending hpend')).created
    change t ∈ World.queue _ (w₁.looked u true)
    rw [queue_next, hsame.queue]
    rw [trigger_concluded_of_ne .fired c (ne_of_waits .fired c hcreated rfl hpend),
      hsame.state] at hpend
    exact hw t hpend
  | endBatch seen =>
    rw [hr.endBatch_eq] at hpend ⊢
    have hmem := hw t hpend
    have hkeep := waits_iff.mpr hpend
    simp only [World.queue, Phase.hand, keepWaiting, List.mem_append, List.mem_filter] at hmem ⊢
    tauto
  | openExpiry now =>
    have hmem := hw t hpend
    simp only [World.queue, Phase.hand, List.mem_append, List.mem_filter] at hmem ⊢
    cases w.isExpired now t <;> simp <;> tauto
  | ignore now todo u _ hnone =>
    refine List.mem_of_ne_of_mem ?_ (hw t hpend)
    rintro rfl
    have hsome := (hr.holds t).isSome_iff.mp hpend
    rw [hnone hpend] at hsome
    cases hsome
  | @timesOut now todo u c _ hpend' hc =>
    have hne := ne_of_waits .timedOut c (created_of_pending hpend') rfl hpend
    rw [trigger_concluded_of_ne .timedOut c hne] at hpend
    exact List.mem_of_ne_of_mem hne (hw t hpend)
  | prune now =>
    have hmem := hw t hpend
    have hkeep := waits_iff.mpr hpend
    simp only [World.queue, Phase.hand, World.prune, List.mem_append, List.mem_filter] at hmem ⊢
    tauto
  | drop _ _ hhand =>
    have hmem := hw t hpend
    rwa [World.queue, hhand hdone] at hmem

theorem Ledger.turn (hl : Ledger p w) (hdone : done) (h : Turn op done (p, w) (p', w')) :
    Ledger p' w' :=
  ⟨h.roster hl.toRoster, fun t => h.ran hl.toRoster (hl.ran t),
    fun _ => h.waits hl.toRoster hl.waits hdone⟩

/-! ## Histories -/

/-- Every operation of the host keeps the ledger and undoes nothing. -/
theorem Ledger.hostStep (hl : Ledger .rest w) (h : HostStep w w') :
    Ledger .rest w' ∧ Onward w w' := by
  obtain ⟨op, fuel, h⟩ := h
  have hturns := perform_turns op fuel w
  unfold Exec.leaves at hturns
  rw [h] at hturns
  refine ⟨?_, hturns.onward hl.toRoster⟩
  exact (hturns.invariant (I := Ledger) (fun _ _ _ _ _ hl => hl.turn rfl) hl.toRoster hl).2

theorem Reachable.ledger (hw : Reachable w) : Ledger .rest w :=
  hw.invariant .start fun _ _ h hl => (hl.hostStep h).1

theorem Later.onward (hw : Reachable w) (h : Later w w') : Ledger .rest w' ∧ Onward w w' := by
  induction h with
  | refl => exact ⟨hw.ledger, .refl w⟩
  | tail _ hstep ih =>
    obtain ⟨hl', ho'⟩ := ih.1.hostStep hstep
    exact ⟨hl', ih.2.trans ho'⟩

/-- What holds of a trigger between any two operations of the host. -/
structure InOrder (w : World) (t : TriggerRef) : Prop where
  /-- It holds its frame and bodies exactly while it waits. -/
  holds : (w.trigger t).Holds
  /-- While it waits it is listed once. -/
  listed : (w.trigger t).state = .pending → (w.pending ++ w.fresh).count t = 1
  session : ∀ s, (w.trigger t).state = .pending → (w.trigger t).session = some s → w.isOpen s
  unlisted : (w.trigger t).state.isTerminal → t ∉ w.pending ∧ t ∉ w.fresh
  ran : (w.trigger t).state.Ran (w.trigger t).origin (w.bodiesRun t)

theorem Ledger.inOrder (hl : Ledger .rest w) (t : TriggerRef) : InOrder w t where
  holds := hl.holds t
  listed hp := List.count_eq_one_of_mem hl.nodup (hl.waits t hp)
  session s hp := hl.session t (hl.waits t hp) s hp
  unlisted hs := by
    have h : t ∉ w.pending ++ w.fresh := fun h => isTerminal_iff.mp hs (hl.listed t h)
    rwa [List.mem_append, not_or] at h
  ran := hl.ran t

/-- A body that ran between two worlds is the only one ever, of a trigger that
did not have a final state before and has the one that goes with it now. -/
theorem Ledger.body_started (hl : Ledger .rest w) (hl' : Ledger .rest w') (ho : Onward w w')
    (h : w'.bodiesRun t ≠ w.bodiesRun t) :
    (w.Created t → (w.trigger t).state = .pending) ∧ w.bodiesRun t = [] ∧
      ((w'.trigger t).state = .fired ∧
          w'.bodiesRun t = [(.fired, (w'.trigger t).origin.body)] ∨
        ∃ s, (w'.trigger t).origin.timeoutBody = some s ∧ (w'.trigger t).state = .timedOut ∧
          w'.bodiesRun t = [(.timedOut, s)]) := by
  -- from a final state no body would have started
  have hbefore : w.Created t → (w.trigger t).state = .pending := fun ht => by
    by_contra hs
    exact h (ho.ran t ht (isTerminal_iff.mpr hs))
  have hnone : w.bodiesRun t = [] := by
    have hran := hl.ran t
    by_cases ht : w.Created t
    · rwa [hbefore ht] at hran
    · rwa [trigger_of_not_created ht] at hran
  refine ⟨hbefore, hnone, ?_⟩
  -- of the states, only the two with bodies allow a body to have run
  have hran := hl'.ran t
  rw [hnone] at h
  revert hran
  cases (w'.trigger t).state <;> intro hran
  · exact absurd hran h
  · exact .inl ⟨rfl, hran⟩
  · rw [TriggerState.Ran] at hran
    rw [hran] at h ⊢
    cases hs : (w'.trigger t).origin.timeoutBody with
    | none => exact absurd (by rw [hs]; rfl) h
    | some s => exact .inr ⟨s, rfl, rfl, rfl⟩
  · exact absurd hran h

/-- The life cycle of triggers, at any point of a history and between any two
points of it. A body starts only as its trigger leaves the pending state: the
success body of what it held if it fired, the timeout body if it timed out. -/
theorem triggers_run_their_course (hw : Reachable w) (h : Later w w') (t : TriggerRef)
    (ht : w.Created t) :
    InOrder w t ∧ InOrder w' t ∧ (w'.trigger t).origin = (w.trigger t).origin ∧
      ((w.trigger t).state.isTerminal →
        (w'.trigger t).state = (w.trigger t).state ∧ w'.bodiesRun t = w.bodiesRun t) ∧
      (w'.bodiesRun t ≠ w.bodiesRun t →
        (w.trigger t).state = .pending ∧ w.bodiesRun t = [] ∧
          ∃ c, (w.trigger t).captured = some c ∧
            ((w'.trigger t).state = .fired ∧ w'.bodiesRun t = [(.fired, c.body)] ∨
              ∃ s, c.timeoutBody = some s ∧ (w'.trigger t).state = .timedOut ∧
                w'.bodiesRun t = [(.timedOut, s)])) := by
  have hl := hw.ledger
  obtain ⟨hl', ho⟩ := h.onward hw
  refine ⟨hl.inOrder t, hl'.inOrder t, ho.origin t ht,
    fun hs => ⟨ho.state t ht hs, ho.ran t ht hs⟩, fun hran => ?_⟩
  obtain ⟨hbefore, hnone, hnow⟩ := hl.body_started hl' ho hran
  obtain ⟨c, hc⟩ := Option.isSome_iff_exists.mp ((hl.holds t).isSome_iff.mp (hbefore ht))
  rw [ho.origin t ht, (hl.holds t).origin_eq hc] at hnow
  exact ⟨hbefore ht, hnone, c, hc, hnow⟩

/-- A unit that waits for what holds already, and for what never does. Both triggers
have a success body and a timeout body. -/
def metAndLate : Script :=
  let say (text : String) : Doc.Stmt := .print [.const (.str text)]
  let waits (b : Bool) : Doc.Stmt := .when (.const (.bool b)) (say "met")
    (some (.mk (.const (.interval (.ofInt 5))) (some (say "late")))) false
  .build ⟨"wait", .toplevel, none, [], .list [waits true, waits false]⟩ 0

/-- When time has moved on the one has fired and the other has timed out. -/
theorem triggers_run_their_course_metAndLate :
    ∃ w w' : World, Reachable w ∧ Later w w' ∧ w.Created ⟨0⟩ ∧ w.Created ⟨1⟩ ∧
      InOrder w ⟨0⟩ ∧ InOrder w' ⟨0⟩ ∧ InOrder w ⟨1⟩ ∧ InOrder w' ⟨1⟩ ∧
      w.output = #[] ∧ w'.output = #["met", "late"] ∧
      (∃ c, (w.trigger ⟨0⟩).captured = some c ∧ c.timeoutBody.isSome ∧
        w'.bodiesRun ⟨0⟩ = [(.fired, c.body)]) ∧
      ∃ c s, (w.trigger ⟨1⟩).captured = some c ∧ c.timeoutBody = some s ∧
        w'.bodiesRun ⟨1⟩ = [(.timedOut, s)] := by
  let w₁ := ((HostOp.newFrame 0 none).perform 1).leaves (.start default default)
  let w₂ := ((HostOp.run metAndLate ⟨0⟩).perform 1).leaves w₁
  let w₃ := ((HostOp.advance ⟨10, 0, by decide⟩).perform 1).leaves w₂
  have hreach : Reachable w₂ :=
    ⟨default, default, .tail (.single (.of_ok (by decide +kernel))) (.of_ok (by decide +kernel))⟩
  have hlater : Later w₂ w₃ := .single (.of_ok (by decide +kernel))
  have hcreated : w₂.Created ⟨0⟩ ∧ w₂.Created ⟨1⟩ := by decide +kernel
  have hran : ∀ t : TriggerRef, (w₃.bodiesRun t).length ≠ (w₂.bodiesRun t).length →
      w₃.bodiesRun t ≠ w₂.bodiesRun t := fun _ hne h => hne (congrArg List.length h)
  have hcourse := triggers_run_their_course hreach hlater
  obtain ⟨hin₀, hout₀, -, -, hbody₀⟩ := hcourse ⟨0⟩ hcreated.1
  obtain ⟨hin₁, hout₁, -, -, hbody₁⟩ := hcourse ⟨1⟩ hcreated.2
  have hstate₀ : (w₃.trigger ⟨0⟩).state = .fired := by decide +kernel
  have hstate₁ : (w₃.trigger ⟨1⟩).state = .timedOut := by decide +kernel
  refine ⟨w₂, w₃, hreach, hlater, hcreated.1, hcreated.2, hin₀, hout₀, hin₁, hout₁,
    by decide +kernel, by decide +kernel, ?_, ?_⟩
  · obtain ⟨-, -, c, hc, ⟨-, hfired⟩ | ⟨s, -, hlate, -⟩⟩ := hbody₀ (hran ⟨0⟩ (by decide +kernel))
    · have htimeout : (w₂.trigger ⟨0⟩).captured.all (·.timeoutBody.isSome) := by decide +kernel
      rw [hc] at htimeout
      exact ⟨c, hc, htimeout, hfired⟩
    · rw [hstate₀] at hlate
      cases hlate
  · obtain ⟨-, -, c, hc, ⟨hfired, -⟩ | ⟨s, hs, -, hlate⟩⟩ := hbody₁ (hran ⟨1⟩ (by decide +kernel))
    · rw [hstate₁] at hfired
      cases hfired
    · exact ⟨c, s, hc, hs, hlate⟩

end World

end Vigil
