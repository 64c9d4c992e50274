import Vigil.Proofs.Exec.Local

/-!
# Vigil.Proofs.Trigger.Basic — the store of triggers under its operations

What each operation on triggers does to the state of one trigger and to the
two lists of those that wait. A reference nobody created yet reads as a
cancelled trigger that holds nothing, so most statements need no bounds.
A pass or an expiry that came to an end is taken apart into its steps here,
once for all that is proved of them (`check_apart` and those after it).
-/

namespace Vigil.World

variable {w : World} {t : TriggerRef} {tr : Trigger} {w' : World} {u : TriggerRef}
  {s : TriggerState}

/-- The reference names a trigger that was created. -/
def Created (w : World) (t : TriggerRef) : Prop := t.idx < w.triggers.size

instance (w : World) (t : TriggerRef) : Decidable (w.Created t) :=
  inferInstanceAs (Decidable (_ < _))

/-- The reference of the next trigger to be created. -/
def nextTrigger (w : World) : TriggerRef := ⟨w.triggers.size⟩

theorem trigger_of_not_created (ht : ¬ w.Created t) : w.trigger t = default := by
  unfold Created at ht
  unfold trigger
  rw [Array.getElem?_eq_none (by omega)]
  rfl

/-- A trigger that waits was created. -/
theorem created_of_pending (h : (w.trigger t).state = .pending) : w.Created t := by
  by_cases ht : w.Created t
  · exact ht
  · rw [trigger_of_not_created ht] at h
    cases h

/-! ## Changing one trigger -/

theorem trigger_modifyTrigger_self (ht : w.Created t) (g : Trigger → Trigger) :
    (w.modifyTrigger t g).trigger t = g (w.trigger t) := by
  unfold Created at ht
  simp [trigger, modifyTrigger, Array.getElem_modify_self, ht]

theorem trigger_modifyTrigger_of_ne (h : u ≠ t) (g : Trigger → Trigger) :
    (w.modifyTrigger t g).trigger u = w.trigger u := by
  have hidx : t.idx ≠ u.idx := fun e => h (by cases t; cases u; cases e; rfl)
  simp [trigger, modifyTrigger, Array.getElem?_modify, hidx]

@[simp] theorem created_modifyTrigger {g : Trigger → Trigger} :
    (w.modifyTrigger t g).Created u ↔ w.Created u := by
  simp [Created, modifyTrigger]

/-- Keeping a value for a deferred result changes nothing else of a trigger. -/
theorem trigger_modifyTrigger_result (w : World) (t u : TriggerRef) (r : Option Value) :
    ∃ r', (w.modifyTrigger t fun tr => { tr with result := r }).trigger u =
      { w.trigger u with result := r' } := by
  by_cases h : u = t
  · by_cases hc : w.Created u
    · subst h
      exact ⟨r, trigger_modifyTrigger_self hc _⟩
    · rw [trigger_of_not_created hc, trigger_of_not_created (mt created_modifyTrigger.mp hc)]
      exact ⟨none, rfl⟩
  · exact ⟨(w.trigger u).result, trigger_modifyTrigger_of_ne h _⟩

/-! ## Leaving the pending state -/

theorem isTerminal_iff : s.isTerminal ↔ s ≠ .pending := by
  cases s <;> simp [TriggerState.isTerminal]

theorem waits_iff : (!s.isTerminal) = true ↔ s = .pending := by
  cases s <;> simp [TriggerState.isTerminal]

/-- The world after a trigger left the pending state. -/
def leave (t : TriggerRef) (state : TriggerState) (w : World) : World :=
  w.modifyTrigger t fun tr => { tr with captured := none, state := state }

theorem cancel_of_pending (h : (w.trigger t).state = .pending) :
    w.cancel t = w.leave t .cancelled := by
  rw [cancel, h]
  rfl

theorem cancel_of_ne_pending (h : (w.trigger t).state ≠ .pending) : w.cancel t = w := by
  rw [cancel, if_pos]
  revert h
  cases (w.trigger t).state <;> simp [TriggerState.isTerminal]

/-- Only the triggers change when one is cancelled, and none is added. -/
theorem cancel_eq (w : World) (t : TriggerRef) :
    ∃ trs, w.cancel t = { w with triggers := trs } ∧ trs.size = w.triggers.size := by
  unfold cancel
  split
  · exact ⟨w.triggers, rfl, rfl⟩
  · exact ⟨_, rfl, Array.size_modify⟩

theorem foldl_cancel_eq (w : World) (ts : List TriggerRef) :
    ∃ trs, ts.foldl (fun w t => w.cancel t) w = { w with triggers := trs } ∧
      trs.size = w.triggers.size := by
  induction ts generalizing w with
  | nil => exact ⟨w.triggers, rfl, rfl⟩
  | cons t ts ih =>
    obtain ⟨trs₁, h₁, hs₁⟩ := w.cancel_eq t
    obtain ⟨trs, h, hs⟩ := ih (w.cancel t)
    rw [h₁] at h hs
    rw [List.foldl_cons, h₁, h]
    exact ⟨trs, rfl, hs.trans hs₁⟩

/-- Every waiting trigger among those cancelled is so, and no other changes. -/
theorem trigger_foldl_cancel (w : World) (ts : List TriggerRef) (u : TriggerRef) :
    (ts.foldl (fun w t => w.cancel t) w).trigger u =
      if u ∈ ts ∧ (w.trigger u).state = .pending then
        { w.trigger u with captured := none, state := .cancelled }
      else w.trigger u := by
  induction ts generalizing w with
  | nil => simp
  | cons t ts ih =>
    rw [List.foldl_cons, ih]
    by_cases hp : (w.trigger t).state = .pending
    · rw [cancel_of_pending hp]
      by_cases hu : u = t
      · subst hu
        rw [leave, trigger_modifyTrigger_self (created_of_pending hp)]
        simp [hp]
      · rw [leave, trigger_modifyTrigger_of_ne hu]
        simp [hu]
    · rw [cancel_of_ne_pending hp]
      by_cases hu : u = t
      · subst hu
        simp [hp]
      · simp [hu]

/-- Where every waiting trigger has its session open, there is nothing to
cancel. -/
theorem foldl_cancelOrphan_eq {ts : List TriggerRef}
    (h : ∀ t ∈ ts, ∀ s, (w.trigger t).state = .pending → (w.trigger t).session = some s →
      w.isOpen s) : ts.foldl cancelOrphan w = w := by
  induction ts with
  | nil => rfl
  | cons t ts ih =>
    have hkept : cancelOrphan w t = w := by
      unfold cancelOrphan
      split
      · rename_i s hs
        rw [if_neg]
        intro horphan
        rw [Bool.and_eq_true, waits_iff, Bool.not_eq_true'] at horphan
        have hopen := h t List.mem_cons_self s horphan.1 hs
        rw [horphan.2] at hopen
        cases hopen
      · rfl
    rw [List.foldl_cons, hkept]
    exact ih fun u hu => h u (List.mem_cons_of_mem t hu)

/-! ## Adding a trigger -/

theorem modify_push_size {α : Type} (a : Array α) (x : α) (g : α → α) :
    (a.push x).modify a.size g = a.push (g x) := by
  refine Array.ext (by simp) fun i h _ => ?_
  simp only [Array.getElem_modify, Array.getElem_push]
  grind

theorem trigger_push_self (h : w'.triggers = w.triggers.push tr) :
    w'.trigger w.nextTrigger = tr := by
  simp [trigger, h, nextTrigger]

theorem trigger_push_of_ne (h : w'.triggers = w.triggers.push tr) (ht : t ≠ w.nextTrigger) :
    w'.trigger t = w.trigger t := by
  have hidx : t.idx ≠ w.triggers.size := fun e => ht (by cases t; cases e; rfl)
  simp [trigger, h, Array.getElem?_push, hidx]

theorem created_push (h : w'.triggers = w.triggers.push tr) (ht : w.Created t) : w'.Created t := by
  unfold Created at ht ⊢
  rw [h, Array.size_push]
  omega

theorem ne_nextTrigger (ht : w.Created t) : t ≠ w.nextTrigger := by
  rintro rfl
  exact Nat.lt_irrefl _ ht

theorem not_created_nextTrigger (w : World) : ¬ w.Created w.nextTrigger := Nat.lt_irrefl _

/-! ## Installing -/

section Install

variable (c : Captured) (deadline : Option Instant) (isReturn : Bool) (span : Span) (w : World)

/-- Whether a trigger for this frame is let in. -/
def letsIn : Bool := w.admits (w.frame c.frame).session

/-- The trigger a `when` adds: one that waits if it is let in, and a cancelled
one that holds nothing otherwise. -/
def installed : Trigger where
  captured := if w.letsIn c then some c else none
  deadline := deadline
  session := (w.frame c.frame).session
  isReturn := isReturn
  span := span
  state := if w.letsIn c then .pending else .cancelled
  result := none
  origin := c

/-- The world a new trigger is registered in: it waits already, and as
`return when` it has taken over the frame's result. -/
def withWaiting : World :=
  let w' := (w.addTrigger c deadline isReturn span).2
  if isReturn then w'.defer c.frame w.nextTrigger else w'

theorem install_eq_register :
    w.install c deadline isReturn span =
      ((w.withWaiting c deadline isReturn span).register w.nextTrigger).2 := rfl

theorem withWaiting_triggers :
    (w.withWaiting c deadline isReturn span).triggers =
      w.triggers.push ⟨some c, deadline, (w.frame c.frame).session, isReturn, span, .pending,
        none, c⟩ := by
  unfold withWaiting
  cases isReturn <;> rfl

theorem admits_withWaiting (s : Option SessionId) :
    (w.withWaiting c deadline isReturn span).admits s = w.admits s := by
  unfold withWaiting
  cases isReturn <;> rfl

/-- All that installing a trigger does. -/
theorem install_eq :
    w.install c deadline isReturn span =
      { w with
        frames := if isReturn then
            w.frames.modify c.frame.idx fun fr => { fr with delayed := some w.nextTrigger }
          else w.frames
        triggers := w.triggers.push (w.installed c deadline isReturn span)
        fresh := w.fresh ++ if w.letsIn c then [w.nextTrigger] else []
        stats := if w.letsIn c then { w.stats with registered := w.stats.registered + 1 }
          else { w.stats with refused := w.stats.refused + 1 }
        journal := (if isReturn then [.defer c.frame w.nextTrigger] else []) ++ w.journal } := by
  have hnew := trigger_push_self (withWaiting_triggers c deadline isReturn span w)
  rw [install_eq_register, register, hnew, admits_withWaiting, ← letsIn]
  by_cases h : w.letsIn c
  · rw [if_pos h]
    cases isReturn <;> simp [withWaiting, modifyStats, addTrigger, defer, modifyFrame, installed, h]
  · rw [if_neg h, cancel_of_pending (by rw [hnew])]
    cases isReturn <;>
      simp [withWaiting, modifyStats, addTrigger, defer, modifyFrame, leave, modifyTrigger,
        installed, nextTrigger, modify_push_size, h]

theorem frame_install (f : FrameRef) :
    (w.install c deadline isReturn span).frame f =
      if isReturn then
        (w.modifyFrame c.frame fun fr => { fr with delayed := some w.nextTrigger }).frame f
      else w.frame f := by
  rw [install_eq]
  cases isReturn <;> rfl

end Install

/-! ## Running one trigger -/

/-- The world in which the body of a trigger starts. -/
def settled (t : TriggerRef) (state : TriggerState) (body : Stmt) (w : World) : World :=
  { w.leave t state with journal := .body t state body :: w.journal }

section Running

variable (fuel : Nat) (t : TriggerRef) (w : World)

theorem runFrom_runBody (f : FrameRef) (body : Stmt) :
    (runBody fuel t f body).runFrom w = match (body.exec fuel f).runFrom w with
      | (.ok out, w₁) =>
        (.ok (), if (w.trigger t).isReturn then
            w₁.modifyTrigger t fun tr => { tr with result := out.value }
          else w₁)
      | (.error (.fault _), w₁) => (.ok (), w₁)
      | (.error s, w₁) => (.error s, w₁) := by
  unfold runBody
  rw [Exec.runFrom_bind, Exec.runFrom_get]
  dsimp only
  rw [Exec.runFrom_onFault, Exec.runFrom_bind]
  rcases (body.exec fuel f).runFrom w with ⟨(e | e | _) | out, w₁⟩
  · rfl
  · rfl
  · rfl
  · cases (w.trigger t).isReturn <;> rfl

theorem runFrom_settle (state : TriggerState) (c : Captured) :
    (settle fuel t state c).runFrom w = match c.bodyFor state with
      | none => (.ok (), w.leave t state)
      | some body => (runBody fuel t c.frame body).runFrom (w.settled t state body) := by
  unfold settle
  rw [Exec.runFrom_bind, Exec.runFrom_modify]
  dsimp only
  cases c.bodyFor state with
  | none => rfl
  | some body =>
    dsimp only
    rw [Exec.runFrom_bind, Exec.runFrom_note]
    rfl

end Running

/-! ## Passes and expiry, taken apart -/

section Apart

variable {fuel : Nat} {t : TriggerRef} {w w' : World} {state : TriggerState}
  {rest : List TriggerRef}

/-- A body came back, whether with an outcome or with an error. Then its value
may be kept. -/
theorem runBody_apart {f : FrameRef} {body : Stmt}
    (h : (runBody fuel t f body).runFrom w = (.ok (), w')) :
    ∃ r w₁, (body.exec fuel f).runFrom w = (r, w₁) ∧ Exec.cameBack r ∧
      (w' = w₁ ∨ ∃ v, w' = w₁.modifyTrigger t fun tr => { tr with result := v }) := by
  rw [runFrom_runBody] at h
  rcases hx : (body.exec fuel f).runFrom w with ⟨(e | e | _) | out, w₁⟩
  all_goals rw [hx] at h
  · cases h
    exact ⟨_, w', rfl, rfl, .inl rfl⟩
  · cases h
  · cases h
  · dsimp only at h
    split at h <;> cases h
    · exact ⟨_, w₁, rfl, rfl, .inr ⟨_, rfl⟩⟩
    · exact ⟨_, w', rfl, rfl, .inl rfl⟩

/-- A trigger that is settled leaves its state and runs the body that goes with
the new one, if there is one. -/
theorem settle_apart {c : Captured} (h : (settle fuel t state c).runFrom w = (.ok (), w')) :
    (c.bodyFor state = none ∧ w' = w.leave t state) ∨ ∃ body, c.bodyFor state = some body ∧
      (runBody fuel t c.frame body).runFrom (w.settled t state body) = (.ok (), w') := by
  rw [runFrom_settle] at h
  cases hb : c.bodyFor state with
  | none =>
    rw [hb] at h
    cases h
    exact .inl ⟨rfl, rfl⟩
  | some body =>
    rw [hb] at h
    exact .inr ⟨body, rfl, h⟩

/-- A look reports the state the trigger is left in. It finds nothing that
waits, or a condition that does not hold, or makes the trigger fire. -/
theorem check_apart (h : (check fuel t).runFrom w = (.ok state, w')) :
    state = (w'.trigger t).state ∧ (w' = w ∨ ∃ c held w₁, (w.trigger t).state = .pending ∧
      (w.trigger t).captured = some c ∧ (holds c).runFrom w = (.ok held, w₁) ∧
      if held then (settle fuel t .fired c).runFrom
          { w₁ with journal := .look t true :: w₁.journal } = (.ok (), w')
        else w' = { w₁ with journal := .look t false :: w₁.journal }) := by
  unfold check at h
  rw [Exec.runFrom_bind, Exec.runFrom_get] at h
  dsimp only at h
  split at h
  · rename_i c hpend hc
    obtain ⟨held, w₁, hholds, h⟩ := Exec.bind_ok h
    obtain ⟨_, _, hnote, h⟩ := Exec.bind_ok h
    cases hnote
    cases held
    · cases h
      exact ⟨rfl, .inr ⟨c, false, w₁, hpend, hc, hholds, rfl⟩⟩
    · obtain ⟨_, _, hsettle, h⟩ := Exec.bind_ok h
      cases h
      exact ⟨rfl, .inr ⟨c, true, w₁, hpend, hc, hholds, hsettle⟩⟩
  · cases h
    exact ⟨rfl, .inl rfl⟩

theorem timeOut_apart (h : (timeOut fuel t).runFrom w = (.ok (), w')) :
    (w' = w ∧ ((w.trigger t).state = .pending → (w.trigger t).captured = none)) ∨
      ∃ c, (w.trigger t).state = .pending ∧ (w.trigger t).captured = some c ∧
        (settle fuel t .timedOut c).runFrom w = (.ok (), w') := by
  unfold timeOut at h
  rw [Exec.runFrom_bind, Exec.runFrom_get] at h
  dsimp only at h
  split at h
  · rename_i c hpend hc
    exact .inr ⟨c, hpend, hc, h⟩
  · rename_i hnot
    cases h
    refine .inl ⟨rfl, fun hpend => Option.eq_none_iff_forall_ne_some.mpr fun c hc => ?_⟩
    exact hnot c hpend hc

/-- The world after a look that reported `state`: one found fired counts. -/
def counted (state : TriggerState) (w : World) : World :=
  if state = .fired then w.modifyStats fun s => { s with fired := s.fired + 1 } else w

theorem runFrom_checkEach_cons (fuel : Nat) (t : TriggerRef) (rest : List TriggerRef) (w : World) :
    (checkEach fuel (t :: rest)).runFrom w = match (check fuel t).runFrom w with
      | (.ok state, w₁) => (checkEach fuel rest).runFrom (w₁.counted state)
      | (.error s, w₁) => (.error s, w₁) := by
  rw [checkEach, Exec.runFrom_bind]
  rcases (check fuel t).runFrom w with ⟨s | state, w₁⟩
  · rfl
  · dsimp only
    unfold counted
    split
    · rw [Exec.runFrom_bind, Exec.runFrom_modify]
    · rfl

/-- Between two triggers of a batch only the count of those that fired
changes. -/
theorem checkEach_ok (h : (checkEach fuel (t :: rest)).runFrom w = (.ok (), w')) :
    ∃ state w₁ stats, (check fuel t).runFrom w = (.ok state, w₁) ∧
      (checkEach fuel rest).runFrom { w₁ with stats := stats } = (.ok (), w') := by
  rw [runFrom_checkEach_cons] at h
  rcases hcheck : (check fuel t).runFrom w with ⟨s | state, w₁⟩
  · rw [hcheck] at h
    cases h
  · rw [hcheck] at h
    refine ⟨state, w₁, (w₁.counted state).stats, rfl, ?_⟩
    have hw₁ : ({ w₁ with stats := (w₁.counted state).stats } : World) = w₁.counted state := by
      unfold counted
      split <;> rfl
    rw [hw₁]
    exact h

/-- The world after a batch: those of it that still wait are put back. -/
def endBatch (batch : List TriggerRef) (w : World) : World :=
  keepWaiting batch (batch.foldl cancelOrphan w)

theorem runFrom_checkBatches_succ (fuel rounds : Nat) {batch : List TriggerRef} (hne : batch ≠ [])
    (w : World) :
    (checkBatches fuel (rounds + 1) batch).runFrom w = match (checkEach fuel batch).runFrom w with
      | (.ok (), w₁) => (checkBatches fuel rounds (w₁.endBatch batch).fresh).runFrom
          { w₁.endBatch batch with fresh := [] }
      | (.error s, w₁) => (.error s, w₁) := by
  obtain ⟨t, rest, rfl⟩ := List.exists_cons_of_ne_nil hne
  rw [checkBatches, Exec.runFrom_bind]
  rcases (checkEach fuel (t :: rest)).runFrom w with ⟨s | _, w₁⟩ <;> rfl

theorem checkBatches_ok {rounds : Nat}
    (h : (checkBatches fuel (rounds + 1) (t :: rest)).runFrom w = (.ok (), w')) :
    ∃ w₁, (checkEach fuel (t :: rest)).runFrom w = (.ok (), w₁) ∧
      (checkBatches fuel rounds (w₁.endBatch (t :: rest)).fresh).runFrom
        { w₁.endBatch (t :: rest) with fresh := [] } = (.ok (), w') := by
  rw [runFrom_checkBatches_succ fuel rounds (List.cons_ne_nil t rest)] at h
  rcases heach : (checkEach fuel (t :: rest)).runFrom w with ⟨s | _, w₁⟩
  · rw [heach] at h
    cases h
  · rw [heach] at h
    exact ⟨w₁, rfl, h⟩

theorem expire_apart {now : Instant} (h : (expire fuel now).runFrom w = (.ok (), w')) :
    ∃ w₁, (timeOutEach fuel (w.pending.filter (w.isExpired now))).runFrom
        { w with pending := w.pending.filter fun t => !w.isExpired now t } = (.ok (), w₁) ∧
      w' = prune (w₁.modifyStats fun s => { s with
        timedOut := s.timedOut + (w.pending.filter (w.isExpired now)).length }) := by
  unfold expire at h
  obtain ⟨_, _, hget, h⟩ := Exec.bind_ok h
  cases hget
  obtain ⟨_, _, hset, h⟩ := Exec.bind_ok h
  cases hset
  obtain ⟨_, w₁, heach, h⟩ := Exec.bind_ok h
  cases h
  exact ⟨w₁, heach, rfl⟩

theorem advance_ok {time : Instant} (h : (advance fuel time).runFrom w = (.ok (), w')) :
    w' = w ∨ ∃ w₁, (checkAll fuel).runFrom { w with now := time } = (.ok (), w₁) ∧
      (expire fuel time).runFrom w₁ = (.ok (), w') := by
  unfold advance at h
  obtain ⟨_, _, hget, h⟩ := Exec.bind_ok h
  cases hget
  split at h
  · cases h
    exact .inl rfl
  · obtain ⟨_, _, hset, h⟩ := Exec.bind_ok h
    cases hset
    obtain ⟨_, w₁, hpass, h⟩ := Exec.bind_ok h
    exact .inr ⟨w₁, hpass, h⟩

end Apart

end Vigil.World
