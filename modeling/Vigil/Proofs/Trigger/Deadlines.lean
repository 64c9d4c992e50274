import Vigil.Proofs.Trigger.Fates
import Vigil.Proofs.Trigger.Limit

/-!
# Vigil.Proofs.Trigger.Deadlines — a look before every timeout

A trigger is first listed as fresh, and only a pass that looked at it in vain
lists it as pending. An expiry takes from the pending ones. So whatever times
out was looked at before, and its last look was in vain (`Looked`); within one
call that moves time, this was a look of the same call (`Expired`).

What a timeout body registers stays fresh until the next pass, even with a
deadline that has come already. Nothing else is left with such a deadline when
time was moved (`deadlines_after_advance`).
-/

namespace Vigil

/-- Those in hand that were looked at. -/
def Phase.looked : Phase → List TriggerRef
  | .rest => []
  | .pass seen _ => seen
  | .expiry _ todo => todo

/-- Since `since` the trigger was looked at, at the latest time in vain. -/
def InVain (since : Journal) (t : TriggerRef) (journal : Journal) : Prop :=
  ∃ later earlier, journal = later ++ .look t false :: earlier ∧ since <:+ earlier ∧
    ∀ held, .look t held ∉ later

namespace InVain

variable {since journal : Journal} {t : TriggerRef}

/-- What was noted later was no look at the trigger. -/
theorem append (h : InVain since t journal) {added : Journal}
    (hnone : ∀ held, .look t held ∉ added) : InVain since t (added ++ journal) := by
  rcases h with ⟨later, earlier, hjournal, hsince, hlater⟩
  refine ⟨added ++ later, earlier, ?_, hsince, ?_⟩
  · rw [hjournal, List.append_assoc]
  · intro held hmem
    rcases List.mem_append.mp hmem with hmem | hmem
    · exact hnone held hmem
    · exact hlater held hmem

theorem look (hsince : since <:+ journal) : InVain since t (.look t false :: journal) :=
  ⟨[], journal, rfl, hsince, fun held hmem => by cases hmem⟩

end InVain

namespace World

open Relation (ReflTransGen)

variable {op : HostOp} {done : Prop} {p p' : Phase} {w w' start : World} {t : TriggerRef}
  {since : Journal} {fuel : Nat} {now : Instant} {f : FrameRef} {time : Instant}

/-! ## What a look notes -/

theorem journal_of_steps (h : ReflTransGen (Step f) w w') : w.journal <:+ w'.journal := by
  induction h with
  | refl => exact List.suffix_rfl
  | tail _ hstep ih => exact ih.trans hstep.journal

theorem journal_settle (state : TriggerState) (c : Captured) :
    w.journal <:+ ((settle fuel t state c).leaves w).journal := by
  unfold Exec.leaves
  rw [runFrom_settle]
  cases c.bodyFor state with
  | none => exact List.suffix_rfl
  | some body =>
    dsimp only
    rw [runFrom_runBody]
    set w₁ := w.settled t state body
    have hstart : w.journal <:+ w₁.journal := List.suffix_cons _ _
    rcases hx : (body.exec fuel c.frame).runFrom w₁ with ⟨(e | e | _) | out, w₂⟩
    all_goals
      have hgrown := hstart.trans (journal_of_steps ((Stmt.exec_moves fuel c.frame body).steps hx))
    · exact hgrown
    · exact hgrown
    · exact hgrown
    · dsimp only
      split <;> exact hgrown

/-- A look is noted as vain exactly if the condition came to zero or to an
error. -/
theorem look_noted_iff {c : Captured} {r : Except Stop Value} {w₁ : World} (fuel : Nat)
    (hpend : (w.trigger t).state = .pending) (hc : (w.trigger t).captured = some c)
    (heval : (c.cond.eval c.frame).runFrom w = (r, w₁)) :
    .look t false :: w₁.journal <:+ ((check fuel t).leaves w).journal ↔ Unmet r := by
  unfold Exec.leaves
  rw [runFrom_check fuel hpend hc, runFrom_holds, heval]
  -- an evaluation that broke off is not noted at all
  have hbroken : ¬ .look t false :: w₁.journal <:+ w₁.journal := by
    intro h
    exact absurd h.length_le (Nat.not_succ_le_self _)
  rcases r with (e | e | _) | v
  · exact ⟨fun _ => trivial, fun _ => List.suffix_rfl⟩
  · exact ⟨fun h => absurd h hbroken, False.elim⟩
  · exact ⟨fun h => absurd h hbroken, False.elim⟩
  · dsimp only
    cases hv : v.isZero with
    | true => exact ⟨fun _ => hv, fun _ => List.suffix_rfl⟩
    | false =>
      -- one that holds is noted as such, in the same place
      have hheld : (w₁.looked t true).journal <:+
          ((settle fuel t .fired c).leaves (w₁.looked t true)).journal := journal_settle .fired c
      unfold Exec.leaves at hheld
      rw [Bool.not_false]
      dsimp only
      rcases hsettle : (settle fuel t .fired c).runFrom (w₁.looked t true) with ⟨s | _, w₂⟩
      all_goals
        rw [hsettle] at hheld
        constructor
        · intro hvain
          have hsuffix := List.suffix_of_suffix_length_le hvain hheld (Nat.le_refl _)
          cases hsuffix.eq_of_length rfl
        · intro hzero
          rw [Unmet, hv] at hzero
          cases hzero

/-! ## Looked at in vain -/

theorem PassesBy.inVain (h : PassesBy t w w') (hv : InVain since t w.journal) :
    InVain since t w'.journal := by
  rcases h.journal with ⟨added, hjournal, hnone⟩
  rw [hjournal]
  exact hv.append fun held hmem => hnone _ hmem rfl

/-- A turn only adds to the journal. -/
theorem Fares.journal (h : Fares t p w w') : w.journal <:+ w'.journal := by
  cases h with
  | passed hpass =>
    rcases hpass.journal with ⟨added, hjournal, -⟩
    rw [hjournal]
    exact List.suffix_append _ _
  | unmet hp hpend hstate hjournal =>
    rw [hjournal]
    exact List.suffix_cons _ _
  | fires hp hpend hstate hc hjournal =>
    rw [hjournal]
    exact (List.suffix_cons _ _).trans (List.suffix_cons _ _)
  | timesOut hp hpend hstate hc hjournal =>
    rw [hjournal]
    exact List.suffix_append _ _
  | cancelled hpend hstate hjournal => exact hjournal ▸ List.suffix_rfl

theorem mem_looked_next {seen todo : List TriggerRef} {u : TriggerRef}
    (ht : t ∈ (Phase.pass (seen ++ [u]) todo).looked ++ w.pending) :
    t ∈ (Phase.pass seen (u :: todo)).looked ++ w.pending ∨ t = u := by
  simp only [Phase.looked, List.mem_append, List.mem_singleton] at ht ⊢
  tauto

/-- Those looked at and those pending were so before, or the turn is a look at
them. -/
theorem Turn.looked (hr : Roster p w) (h : Turn op done (p, w) (p', w'))
    (ht : t ∈ p'.looked ++ w'.pending) (hpend : (w'.trigger t).state = .pending) :
    t ∈ p.looked ++ w.pending ∨ w'.journal = .look t false :: w.journal := by
  cases h with
  | step hstep =>
    rcases hstep.install_or with hsame | ⟨c, deadline, isReturn, span, rfl⟩
    · rw [hsame.pending] at ht
      exact .inl ht
    · rw [install_eq] at ht
      exact .inl ht
  | result | count | addFrame | clock | newSession => exact .inl ht
  | closeSession _ s =>
    obtain ⟨-, -, -, hpending, -⟩ := closeSession_fields s w
    exact .inl (hpending.subset ht)
  | cancelAll =>
    rcases cancelAll_eq w with ⟨trs, stats, heq, -⟩
    rw [heq] at ht
    cases ht
  | openPass => cases ht
  | skip seen todo u _ hnone =>
    rcases mem_looked_next ht with hold | rfl
    · exact .inl hold
    · -- a trigger that waits holds something to look at
      have hsome := (hr.holds t).isSome_iff.mp hpend
      rw [hnone hpend] at hsome
      cases hsome
  | @unmet seen todo u c _ w₁ r hpend' hc heval hunmet =>
    rcases eval_leaves heval with ⟨heap, slots, rfl⟩
    rcases mem_looked_next ht with hold | rfl
    · exact .inl hold
    · exact .inr rfl
  | @fires seen todo u c _ w₁ v hpend' hc heval hv =>
    rcases eval_leaves heval with ⟨heap, slots, rfl⟩
    rcases mem_looked_next ht with hold | rfl
    · exact .inl hold
    · have hcreated : ((w.withStore c.frame heap slots).looked t true).Created t :=
        created_of_pending hpend'
      rw [trigger_concluded_self .fired c hcreated] at hpend
      cases hpend
  | endBatch seen =>
    rw [hr.endBatch_eq] at ht
    have hkept : t ∈ w.pending ++ seen.filter fun t => !(w.trigger t).state.isTerminal := ht
    rcases List.mem_append.mp hkept with hold | hkept
    · exact .inl (List.mem_append_right _ hold)
    · exact .inl (List.mem_append_left _ (List.mem_of_mem_filter hkept))
  | openExpiry now =>
    rcases List.mem_append.mp ht with hdue | hlater
    · exact .inl (List.mem_of_mem_filter hdue)
    · exact .inl (List.mem_of_mem_filter hlater)
  | ignore now todo u => exact .inl (List.mem_cons_of_mem u ht)
  | timesOut now todo => exact .inl (List.mem_cons_of_mem _ ht)
  | prune => exact .inl (List.mem_of_mem_filter ht)
  | drop => exact .inl (List.mem_append_right _ ht)

/-- Since `since`, every trigger that is pending, or was looked at and still
waits, was looked at in vain. -/
structure Looked (since : Journal) (p : Phase) (w : World) : Prop where
  grown : since <:+ w.journal
  looked : ∀ t ∈ p.looked ++ w.pending, (w.trigger t).state = .pending →
    InVain since t w.journal

theorem Roster.created_of_looked (hr : Roster p w) (ht : t ∈ p.looked ++ w.pending) :
    w.Created t := by
  refine hr.created_of_queue ?_
  rcases List.mem_append.mp ht with hlooked | hpending
  · cases p with
    | rest => cases hlooked
    | pass seen todo => exact List.mem_append_left _ (List.mem_append_left _ hlooked)
    | expiry now todo => exact List.mem_append_left _ hlooked
  · exact List.mem_append_right _ (List.mem_append_left _ hpending)

theorem Looked.turn (hr : Roster p w) (hl : Looked since p w) (h : Turn op done (p, w) (p', w')) :
    Looked since p' w' := by
  constructor
  · exact hl.grown.trans (h.fares hr ⟨0⟩).journal
  · intro t ht hpend
    rcases h.looked hr ht hpend with hold | hlook
    · have hcreated := hr.created_of_looked hold
      cases h.fares hr t with
      | passed hpass =>
        rw [hpass.state_eq hcreated] at hpend
        exact hpass.inVain (hl.looked t hold hpend)
      | unmet hp hwaits hstate hjournal =>
        rw [hjournal]
        exact .look hl.grown
      | fires hp hwaits hstate hjournal | timesOut hp hwaits hstate hjournal
      | cancelled hwaits hstate hjournal =>
        rw [hstate] at hpend
        cases hpend
    · rw [hlook]
      exact .look hl.grown

/-! ## Timeouts -/

/-- Those an expiry has in hand were taken for their deadline. -/
theorem Turn.due {todo' : List TriggerRef} (h : Turn op done (p, w) (.expiry now todo', w')) :
    op.expiry? = some now ∧ (∀ t ∈ todo', t ∈ w.pending ∧ w.isExpired now t) ∨
      ∃ todo, p = .expiry now todo ∧ todo' ⊆ todo := by
  cases h with
  | step | result | count => exact .inr ⟨todo', rfl, List.Subset.refl _⟩
  | openExpiry _ _ hop =>
    left
    exact ⟨hop, fun t ht => List.mem_filter.mp ht⟩
  | ignore _ _ u => exact .inr ⟨u :: todo', rfl, List.subset_cons_self u todo'⟩
  | timesOut => exact .inr ⟨_ :: todo', rfl, List.subset_cons_self _ todo'⟩

theorem Remains.isExpired (h : Remains t w w') : w'.isExpired now t = w.isExpired now t := by
  unfold World.isExpired
  rw [h.deadline]

/-- Whatever timed out since `start` did so by its deadline, and had been looked
at in vain. -/
structure Expired (op : HostOp) (start : World) (since : Journal) (p : Phase) (w : World) :
    Prop where
  looked : Looked since p w
  due : ∀ now todo, p = .expiry now todo →
    op.expiry? = some now ∧ ∀ t ∈ todo, w.isExpired now t
  timedOut : ∀ t, (start.trigger t).state ≠ .timedOut → (w.trigger t).state = .timedOut →
    ∃ now, op.expiry? = some now ∧ w.isExpired now t ∧ InVain since t w.journal

theorem Expired.turn (hr : Roster p w) (he : Expired op start since p w)
    (h : Turn op done (p, w) (p', w')) : Expired op start since p' w' := by
  refine ⟨he.looked.turn hr h, ?_, ?_⟩
  · intro now todo' hp
    subst hp
    rcases h.due with ⟨hop, hdue⟩ | ⟨todo, hp, hsub⟩
    · refine ⟨hop, fun t ht => ?_⟩
      have hlisted := hr.listed t (List.mem_append_left _ (hdue t ht).1)
      rw [(h.remains hr (created_of_pending hlisted)).isExpired]
      exact (hdue t ht).2
    · rcases he.due now todo hp with ⟨hop, hdue⟩
      refine ⟨hop, fun t ht => ?_⟩
      have hhand : t ∈ p.hand := by
        rw [hp]
        exact hsub ht
      rw [(h.remains hr (hr.created t hhand)).isExpired]
      exact hdue t (hsub ht)
  · intro t hstart hout
    cases h.fares hr t with
    | passed hpass =>
      have hbefore : (w.trigger t).state = .timedOut := by
        rcases hpass.state with hsame | ⟨-, hnew⟩
        · rw [← hsame]
          exact hout
        · rw [hnew] at hout
          cases hout
      have hcreated : w.Created t := by
        by_contra hnone
        rw [trigger_of_not_created hnone] at hbefore
        cases hbefore
      rcases he.timedOut t hstart hbefore with ⟨now, hop, hexpired, hvain⟩
      refine ⟨now, hop, ?_, hpass.inVain hvain⟩
      rw [(h.remains hr hcreated).isExpired]
      exact hexpired
    | @timesOut now todo c hp hwaits hstate hc hjournal =>
      -- it was in hand for its deadline, and there because it was looked at
      rcases he.due now (t :: todo) hp with ⟨hop, hdue⟩
      have hvain := he.looked.looked t (by rw [hp]; exact List.mem_cons_self) hwaits
      refine ⟨now, hop, ?_, ?_⟩
      · rw [(h.remains hr (created_of_pending hwaits)).isExpired]
        exact hdue t List.mem_cons_self
      · rw [hjournal]
        refine hvain.append fun held hmem => ?_
        obtain ⟨body, -, hbody⟩ := List.mem_map.mp hmem
        cases hbody
    | unmet hp hwaits hstate hjournal | fires hp hwaits hstate hjournal
    | cancelled hwaits hstate hjournal =>
      rw [hstate] at hout
      cases hout

/-! ## What is left when time was moved -/

/-- Statements make fresh only what they create. -/
theorem fresh_of_steps (h : ReflTransGen (Step f) w w') (ht : t ∈ w'.fresh) :
    t ∈ w.fresh ∨ ¬ w.Created t := by
  induction h with
  | refl => exact .inl ht
  | tail hsteps hstep ih =>
    rcases hstep.install_or with hsame | ⟨c, deadline, isReturn, span, rfl⟩
    · rw [hsame.fresh] at ht
      exact ih ht
    · rw [install_eq] at ht
      rcases List.mem_append.mp ht with hold | hnew
      · exact ih hold
      · right
        intro hcreated
        split at hnew
        · rw [List.mem_singleton.mp hnew] at hcreated
          exact not_created_nextTrigger _ (created_of_steps hsteps hcreated)
        · cases hnew

/-- While those due time out in turn, the timeout body of one of them registers
the trigger. -/
def TimeoutRegisters (fuel : Nat) (due : List TriggerRef) (w : World) (t : TriggerRef) : Prop :=
  ∃ done u todo c body, due = done ++ u :: todo ∧
    let v := (timeOutEach fuel done).leaves w
    (v.trigger u).state = .pending ∧ (v.trigger u).captured = some c ∧
      c.timeoutBody = some body ∧ ¬ v.Created t ∧
      t ∈ ((body.exec fuel c.frame).leaves (v.concluded u .timedOut c)).fresh

theorem timeOut_fresh {u : TriggerRef} (h : (timeOut fuel u).runFrom w = (.ok (), w'))
    (ht : t ∈ w'.fresh) : t ∈ w.fresh ∨ TimeoutRegisters fuel [u] w t := by
  rcases timeOut_apart h with ⟨rfl, -⟩ | ⟨c, hpend, hc, hsettle⟩
  · exact .inl ht
  · obtain ⟨-, rfl⟩ | ⟨body, hbody, hsettle⟩ := settle_apart hsettle
    · exact .inl ht
    · have hstart : w.settled u .timedOut body = w.concluded u .timedOut c := by
        unfold concluded
        rw [hbody]
        rfl
      rw [hstart] at hsettle
      obtain ⟨r, w₁, hx, -, hkept⟩ := runBody_apart hsettle
      -- keeping the value of the body does not change the lists
      have hfresh : t ∈ ((body.exec fuel c.frame).leaves (w.concluded u .timedOut c)).fresh := by
        unfold Exec.leaves
        rw [hx]
        rcases hkept with rfl | ⟨v, rfl⟩ <;> exact ht
      rcases fresh_of_steps (Stmt.exec_moves fuel c.frame body _) hfresh with hold | hnew
      · exact .inl hold
      · refine .inr ⟨[], u, [], c, body, rfl, hpend, hc, hbody, ?_, hfresh⟩
        intro hcreated
        exact hnew (remains_concluded u .timedOut c hcreated).created

theorem timeOutEach_fresh {due : List TriggerRef}
    (h : (timeOutEach fuel due).runFrom w = (.ok (), w')) (ht : t ∈ w'.fresh) :
    t ∈ w.fresh ∨ TimeoutRegisters fuel due w t := by
  induction due generalizing w with
  | nil =>
    cases h
    exact .inl ht
  | cons u due ih =>
    unfold timeOutEach at h
    rcases Exec.bind_ok h with ⟨_, w₁, hfirst, hrest⟩
    rcases ih hrest with hfresh | ⟨done, u', todo, c, body, hdue, hregister⟩
    · rcases timeOut_fresh hfirst hfresh with hold | ⟨done, u', todo, c, body, hdue, hregister⟩
      · exact .inl hold
      · -- among one there is no other before it
        rcases List.singleton_eq_append_iff.mp hdue with ⟨rfl, hcons⟩ | ⟨-, hcons⟩
        · cases hcons
          exact .inr ⟨[], u, due, c, body, rfl, hregister⟩
        · cases hcons
    · right
      have hleaves :
          (timeOutEach fuel (u :: done)).leaves w = (timeOutEach fuel done).leaves w₁ := by
        unfold Exec.leaves
        rw [timeOutEach, Exec.runFrom_bind, hfirst]
      refine ⟨u :: done, u', todo, c, body, ?_, ?_⟩
      · rw [hdue]
        rfl
      · rw [hleaves]
        exact hregister

/-- A pass leaves nothing that it did not look at. -/
theorem checkBatches_fresh {rounds : Nat} {batch : List TriggerRef}
    (hempty : batch = [] → w.fresh = [])
    (h : (checkBatches fuel rounds batch).runFrom w = (.ok (), w')) : w'.fresh = [] := by
  induction rounds generalizing batch w with
  | zero =>
    cases batch with
    | nil =>
      cases h
      exact hempty rfl
    | cons t rest => cases h
  | succ rounds ih =>
    by_cases hne : batch = []
    · subst hne
      cases h
      exact hempty rfl
    · rw [runFrom_checkBatches_succ fuel rounds hne] at h
      rcases heach : (checkEach fuel batch).runFrom w with ⟨s | _, w₁⟩
      all_goals rw [heach] at h
      · cases h
      · exact ih (fun _ => rfl) h

theorem checkAll_fresh (h : (checkAll fuel).runFrom w = (.ok (), w')) : w'.fresh = [] := by
  have hbatches : (checkBatches fuel fuel (w.pending ++ w.fresh)).runFrom
      { w with pending := [], fresh := [] } = (.ok (), w') := h
  exact checkBatches_fresh (fun _ => rfl) hbatches

/-- After an expiry, what is still listed has no deadline that has come, or was
fresh before, or a timeout body registered it. -/
theorem deadlines_after_expire (hr : Roster .rest w)
    (h : (expire fuel now).runFrom w = (.ok (), w')) (ht : t ∈ w'.pending ++ w'.fresh) :
    (w'.trigger t).deadline = none ∨
      (∃ d, (w'.trigger t).deadline = some d ∧ d.order now = .gt) ∨ t ∈ w.fresh ∨
      TimeoutRegisters fuel (w.pending.filter (w.isExpired now))
        { w with pending := w.pending.filter fun t => !w.isExpired now t } t := by
  have hturns := perform_turns (.expire now) fuel w
  unfold Exec.leaves at hturns
  rw [HostOp.perform, h] at hturns
  rcases expire_apart h with ⟨w₁, heach, rfl⟩
  rcases List.mem_append.mp ht with hpending | hfresh
  · -- a pending one was not taken out for its deadline
    have hsame := (timeOutEach_runsUnder (n := 0) heach).pending
    have hmem : t ∈ w₁.pending := List.mem_of_mem_filter hpending
    rw [hsame, List.mem_filter, Bool.not_eq_true', isExpired] at hmem
    rcases hmem with ⟨hmem, hlater⟩
    have hlisted := hr.listed t (List.mem_append_left _ hmem)
    rw [(hturns.remains hr (created_of_pending hlisted)).deadline]
    cases hd : (w.trigger t).deadline with
    | none => exact .inl rfl
    | some d =>
      rw [hd] at hlater
      refine .inr (.inl ⟨d, rfl, ?_⟩)
      simpa using hlater
  · exact .inr (.inr (timeOutEach_fresh heach (List.mem_of_mem_filter hfresh)))

/-- While time moves to `time`, a timeout body registers the trigger. -/
def RegisteredByTimeout (fuel : Nat) (time : Instant) (w : World) (t : TriggerRef) : Prop :=
  let w₁ := (checkAll fuel).leaves { w with now := time }
  TimeoutRegisters fuel (w₁.pending.filter (w₁.isExpired time))
    { w₁ with pending := w₁.pending.filter fun t => !w₁.isExpired time t } t

theorem deadlines_after_advance (hr : Roster .rest w) (hpast : time.order w.now ≠ .lt)
    (h : (advance fuel time).runFrom w = (.ok (), w')) (ht : t ∈ w'.pending ++ w'.fresh) :
    (w'.trigger t).deadline = none ∨
      (∃ d, (w'.trigger t).deadline = some d ∧ d.order time = .gt) ∨
      RegisteredByTimeout fuel time w t := by
  rw [runFrom_advance hpast] at h
  rcases Exec.bind_ok h with ⟨_, w₁, hpass, hexpire⟩
  have hclock : Roster .rest { w with now := time } :=
    hr.same ⟨fun t => ⟨_, rfl⟩, rfl, rfl, rfl, rfl, rfl⟩
  have hturns := perform_turns .checkAll fuel { w with now := time }
  have hw₁ : (checkAll fuel).leaves { w with now := time } = w₁ := congrArg Prod.snd hpass
  rw [HostOp.perform, hw₁] at hturns
  unfold RegisteredByTimeout
  rw [hw₁]
  have hcases := deadlines_after_expire (hturns.roster hclock) hexpire ht
  rcases hcases with hnone | hgt | hold | hregister
  · exact .inl hnone
  · exact .inr (.inl hgt)
  · -- the pass before looked at everything
    rw [checkAll_fresh hpass] at hold
    cases hold
  · exact .inr (.inr hregister)

/-! ## Histories -/

theorem Possible.looked (hw : Possible w) : Looked [] .rest w := by
  rcases hw with ⟨now, limits, h⟩
  have hstart : Looked [] .rest (.start now limits) :=
    ⟨List.nil_suffix, fun t ht => by cases ht⟩
  have hend := h.invariant (fun _ _ _ _ _ _ hr hl hturn => hl.turn hr hturn) (.start now limits)
    hstart
  exact hend.2

/-- Nothing timed out yet. -/
theorem Looked.expired (hl : Looked since p w) (hp : ∀ now todo, p ≠ .expiry now todo)
    (hstart : ∀ t, (w.trigger t).state = .timedOut → (start.trigger t).state = .timedOut) :
    Expired op start since p w where
  looked := hl
  due now todo h := absurd h (hp now todo)
  timedOut t hbefore hout := absurd (hstart t hout) hbefore

/-- What times out when time is moved was looked at in the same call. -/
theorem advance_looked (hr : Roster .rest w)
    (hout : (((advance fuel time).leaves w).trigger t).state = .timedOut)
    (hbefore : (w.trigger t).state ≠ .timedOut) :
    InVain w.journal t ((advance fuel time).leaves w).journal := by
  by_cases hpast : time.order w.now = .lt
  · unfold Exec.leaves at hout
    rw [runFrom_advance_past hpast] at hout
    exact absurd hout hbefore
  · have hclock : Roster .rest { w with now := time } :=
      hr.same ⟨fun t => ⟨_, rfl⟩, rfl, rfl, rfl, rfl, rfl⟩
    have hopen : Turn (.advance time) False (.rest, { w with now := time }) _ := .openPass _ rfl
    -- the pass starts with nothing looked at and nothing listed
    have hlooked : Looked w.journal (.pass [] (w.pending ++ w.fresh))
        { w with now := time, pending := [], fresh := [] } :=
      ⟨List.suffix_rfl, fun t ht => by cases ht⟩
    have hfirst : Expired (.advance time) w w.journal _ _ :=
      hlooked.expired (fun _ _ h => by cases h) fun _ h => h
    have hturns : Turns (.advance time) False _ (.rest, (advance fuel time).leaves w) :=
      (advance_turns rfl hpast).rest rfl False.elim
    have hend := hturns.invariant (fun _ _ _ _ hr he hturn => he.turn hr hturn)
      (hopen.roster hclock) hfirst
    rcases hend.2.timedOut t hbefore hout with ⟨now, -, -, hvain⟩
    exact hvain

/-- A condition gets its look before a timeout. -/
theorem look_precedes_timeout (hw : Possible w) (op : HostOp) (fuel : Nat) :
    let w' := (op.perform fuel).leaves w
    -- a look is noted as vain exactly if the condition came to zero or to an error
    (∀ v t c r v₁, (v.trigger t).state = .pending → (v.trigger t).captured = some c →
      (c.cond.eval c.frame).runFrom v = (r, v₁) →
      (.look t false :: v₁.journal <:+ ((check fuel t).leaves v).journal ↔ Unmet r)) ∧
    -- what times out had come to its deadline and was looked at in vain
    (∀ t, (w.trigger t).state ≠ .timedOut → (w'.trigger t).state = .timedOut →
      ∃ now d, op.expiry? = some now ∧ (w'.trigger t).deadline = some d ∧ d.order now ≠ .gt ∧
        InVain [] t w'.journal ∧ (op = .advance now → InVain w.journal t w'.journal)) ∧
    -- and when time was moved, what waits has no deadline that has come
    ∀ time, op = .advance time → time.order w.now ≠ .lt → ((op.perform fuel).runFrom w).1.isOk →
      ∀ t, t ∈ w'.pending ++ w'.fresh ∨ Reachable w ∧ (w'.trigger t).state = .pending →
        (w'.trigger t).deadline = none ∨
          (∃ d, (w'.trigger t).deadline = some d ∧ d.order time = .gt) ∨
          RegisteredByTimeout fuel time w t := by
  intro w'
  have hr := hw.roster
  refine ⟨?_, ?_, ?_⟩
  · intro v t c r v₁ hpend hc heval
    exact look_noted_iff fuel hpend hc heval
  · intro t hbefore hout
    have hfirst : Expired op w [] .rest w :=
      hw.looked.expired (fun _ _ h => by cases h) fun _ h => h
    have hend := (perform_turns op fuel w).invariant
      (fun _ _ _ _ hr he hturn => he.turn hr hturn) hr hfirst
    rcases hend.2.timedOut t hbefore hout with ⟨now, hop, hexpired, hvain⟩
    unfold isExpired at hexpired
    split at hexpired
    · rename_i d hd
      refine ⟨now, d, hop, hd, by simpa using hexpired, hvain, ?_⟩
      rintro rfl
      exact advance_looked hr hout hbefore
    · cases hexpired
  · rintro time rfl hpast hok t hwaits
    have hrun := Exec.runFrom_of_isOk hok
    refine deadlines_after_advance hr hpast hrun ?_
    rcases hwaits with hlisted | ⟨hreach, hpend⟩
    · exact hlisted
    · -- as long as no operation broke off, whatever waits is listed
      exact (hreach.ledger.hostStep ⟨_, fuel, hrun⟩).1.waits t hpend

/-- A unit that waits in vain for a second, and then for the same second
again. -/
def lateAgain : Script :=
  .build ⟨"late", .toplevel, none, [],
    .when (.const (.bool false)) .null (some (.mk (.const (.time ⟨0x3ff0000000000000⟩))
        (some (.when (.const (.bool false)) .null
          (some (.mk (.const (.time ⟨0x3ff0000000000000⟩)) none)) false))))
      false⟩ 0

/-- One call makes the look and the timeout, and leaves what the timeout body
registered for a deadline that had come. -/
theorem look_precedes_timeout_late_again :
    ∃ (w w' : World) (time : Instant), Possible w ∧
      w' = ((HostOp.advance time).perform 2).leaves w ∧
      (w.trigger ⟨0⟩).state = .pending ∧ (w'.trigger ⟨0⟩).state = .timedOut ∧
      InVain w.journal ⟨0⟩ w'.journal ∧ w'.fresh = [⟨1⟩] ∧ w'.isExpired time ⟨1⟩ ∧
      RegisteredByTimeout 2 time w ⟨1⟩ := by
  let time : Instant := ⟨2, 0, by decide⟩
  let w₁ := ((HostOp.newFrame 0 none).perform 2).leaves (.start default default)
  let w := ((HostOp.run lateAgain ⟨0⟩).perform 2).leaves w₁
  let w' := ((HostOp.advance time).perform 2).leaves w
  have hw : Possible w := ⟨default, default, (Ever.perform .refl (.newFrame 0 none) 2).perform _ 2⟩
  rcases look_precedes_timeout hw (.advance time) 2 with ⟨-, hout, hleft⟩
  have hpend : (w.trigger ⟨0⟩).state = .pending := by decide +kernel
  have htimedOut : (w'.trigger ⟨0⟩).state = .timedOut := by decide +kernel
  have hfresh : w'.fresh = [⟨1⟩] := by decide +kernel
  have hlate : w'.isExpired time ⟨1⟩ := by decide +kernel
  refine ⟨w, w', time, hw, rfl, hpend, htimedOut, ?_, hfresh, hlate, ?_⟩
  · rcases hout ⟨0⟩ (by rw [hpend]; decide) htimedOut with ⟨now, d, hop, -, -, -, hsame⟩
    cases hop
    exact hsame rfl
  · have hlisted : ⟨1⟩ ∈ w'.pending ++ w'.fresh := by
      rw [hfresh]
      exact List.mem_append_right _ List.mem_cons_self
    have hpast : time.order w.now ≠ .lt := by decide +kernel
    have hok : (((HostOp.advance time).perform 2).runFrom w).1.isOk := by decide +kernel
    rcases hleft time rfl hpast hok ⟨1⟩ (.inl hlisted) with hnone | ⟨d, hd, hgt⟩ | hregistered
    · have hnever : w'.isExpired time ⟨1⟩ = false := by
        unfold isExpired
        rw [hnone]
      rw [hnever] at hlate
      cases hlate
    · have hlater : w'.isExpired time ⟨1⟩ = false := by
        unfold isExpired
        rw [hd]
        simp [hgt]
      rw [hlater] at hlate
      cases hlate
    · exact hregistered

end World

end Vigil
