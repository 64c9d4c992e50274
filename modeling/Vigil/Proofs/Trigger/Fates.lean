import Vigil.Proofs.Trigger.Roster

/-!
# Vigil.Proofs.Trigger.Fates — what a turn does to one trigger

Of all triggers a turn can be about, at most one is looked at or leaves the
pending state. For a given trigger, a turn passes it by, or makes a look at it,
or ends its waiting (`Turn.fares`). Its session and deadline it keeps in any
case, and so it does what it was created with (`Turn.remains`).
-/

namespace Vigil

/-- The entry is about a look at the trigger, or about a body of it. -/
def Entry.Concerns (t : TriggerRef) : Entry → Prop
  | .look u _ | .body u _ _ => u = t
  | .start .. | .defer .. => False

/-- The body that the trigger started and the state it goes with, in a note about that. -/
def Entry.bodyOf? (t : TriggerRef) : Entry → Option (TriggerState × Stmt)
  | .body u state s => if u = t then some (state, s) else none
  | .start .. | .look .. | .defer .. => none

namespace World

variable {w₁ : World} {f : FrameRef}

/-- The bodies a trigger has started, each with the state it goes with, the latest
first. -/
def bodiesRun (w : World) (t : TriggerRef) : List (TriggerState × Stmt) :=
  w.journal.filterMap (·.bodyOf? t)

variable {op : HostOp} {done : Prop} {p p' : Phase} {w w' : World} {t u : TriggerRef}

/-! ## What stays -/

/-- The trigger is there before and after, with the same deadline and session,
and created with the same. -/
structure Remains (t : TriggerRef) (w w' : World) : Prop where
  created : w'.Created t
  session : (w'.trigger t).session = (w.trigger t).session
  deadline : (w'.trigger t).deadline = (w.trigger t).deadline
  origin : (w'.trigger t).origin = (w.trigger t).origin

theorem SameRoster.remains (h : SameRoster w w') (ht : w.Created t) : Remains t w w' := by
  rcases h.trigger t with ⟨r, htr⟩
  refine ⟨?_, by rw [htr], by rw [htr], by rw [htr]⟩
  unfold Created
  rw [h.size]
  exact ht

theorem remains_of_triggers (h : w'.triggers = w.triggers) (ht : w.Created t) : Remains t w w' := by
  have htr : w'.trigger t = w.trigger t := by
    unfold trigger
    rw [h]
  refine ⟨?_, by rw [htr], by rw [htr], by rw [htr]⟩
  unfold Created
  rw [h]
  exact ht

theorem remains_of_cancel (hsize : w'.triggers.size = w.triggers.size)
    (h : w'.trigger t = { w.trigger t with captured := none, state := .cancelled } ∨
      w'.trigger t = w.trigger t) (ht : w.Created t) : Remains t w w' := by
  have hcreated : w'.Created t := by
    unfold Created
    rw [hsize]
    exact ht
  rcases h with h | h
  · exact ⟨hcreated, by rw [h], by rw [h], by rw [h]⟩
  · exact ⟨hcreated, by rw [h], by rw [h], by rw [h]⟩

theorem remains_concluded (u : TriggerRef) (state : TriggerState) (c : Captured)
    (ht : w.Created t) : Remains t w (w.concluded u state c) := by
  have hcreated : (w.concluded u state c).Created t := by
    unfold Created
    rw [size_concluded]
    exact ht
  by_cases htu : t = u
  · subst htu
    have hself := trigger_concluded_self state c ht
    exact ⟨hcreated, by rw [hself], by rw [hself], by rw [hself]⟩
  · have hother := trigger_concluded_of_ne (w := w) state c htu
    exact ⟨hcreated, by rw [hother], by rw [hother], by rw [hother]⟩

theorem Remains.trans {w₂ : World} (h : Remains t w w₁) (h' : Remains t w₁ w₂) : Remains t w w₂ :=
  ⟨h'.created, h'.session.trans h.session, h'.deadline.trans h.deadline,
    h'.origin.trans h.origin⟩

theorem Turn.remains (hr : Roster p w) (h : Turn op done (p, w) (p', w')) (ht : w.Created t) :
    Remains t w w' := by
  cases h with
  | step hstep =>
    have htr := hstep.trigger_eq ht
    exact ⟨hstep.created ht, by rw [htr], by rw [htr], by rw [htr]⟩
  | result _ _ u v => exact (sameRoster_result w u v).remains ht
  | closeSession _ s =>
    exact remains_of_cancel (closeSession_fields s w).2.2.1
      (hr.trigger_closeSession s t ▸ ite_eq_or_eq _ _ _) ht
  | cancelAll =>
    rcases cancelAll_eq w with ⟨trs, stats, heq, hsize⟩
    refine remains_of_cancel ?_ (trigger_cancelAll w t ▸ ite_eq_or_eq _ _ _) ht
    rw [heq]
    exact hsize
  | @unmet seen todo u c _ w₁ r hpend hc heval hunmet =>
    exact (sameRoster_looked heval u false).remains ht
  | @fires seen todo u c _ w₁ v hpend hc heval hv =>
    have hlook := (sameRoster_looked heval u true).remains ht
    exact hlook.trans (remains_concluded u .fired c hlook.created)
  | endBatch seen =>
    rw [hr.endBatch_eq]
    exact remains_of_triggers rfl ht
  | @timesOut now todo u c _ hpend hc => exact remains_concluded u .timedOut c ht
  | _ => exact remains_of_triggers rfl ht

theorem Turns.remains (hr : Roster p w) (ht : w.Created t) (h : Turns op done (p, w) (p', w')) :
    Remains t w w' := by
  have hend := h.invariant (I := fun _ v => Remains t w v) (fun _ _ _ _ hr hrem hturn => ?_) hr
    ⟨ht, rfl, rfl, rfl⟩
  · exact hend.2
  · exact hrem.trans (hturn.remains hr hrem.created)

/-! ## What changes -/

/-- The trigger is passed by: its state stays, unless it is a new one that
waits, and nothing is noted about it. -/
structure PassesBy (t : TriggerRef) (w w' : World) : Prop where
  state : (w'.trigger t).state = (w.trigger t).state ∨
    ¬ w.Created t ∧ (w'.trigger t).state = .pending
  journal : ∃ added, w'.journal = added ++ w.journal ∧ ∀ e ∈ added, ¬ e.Concerns t

theorem PassesBy.state_eq (h : PassesBy t w w') (ht : w.Created t) :
    (w'.trigger t).state = (w.trigger t).state := by
  rcases h.state with hstate | ⟨hnew, -⟩
  · exact hstate
  · exact absurd ht hnew

/-- Nothing of the journal's new entries is about a body of the trigger. -/
theorem PassesBy.bodiesRun_eq (h : PassesBy t w w') : w'.bodiesRun t = w.bodiesRun t := by
  rcases h.journal with ⟨added, hjournal, hnone⟩
  have hadded : added.filterMap (·.bodyOf? t) = [] := by
    rw [List.filterMap_eq_nil_iff]
    intro e he
    have hother := hnone e he
    cases e with
    | body u state s => exact if_neg hother
    | _ => rfl
  rw [bodiesRun, hjournal, List.filterMap_append, hadded, List.nil_append, bodiesRun]

theorem passesBy_of_journal_eq (hstate : (w'.trigger t).state = (w.trigger t).state)
    (hjournal : w'.journal = w.journal) : PassesBy t w w' :=
  ⟨.inl hstate, [], hjournal, fun e he => by cases he⟩

theorem passesBy_of_eq (htriggers : w'.triggers = w.triggers) (hjournal : w'.journal = w.journal) :
    PassesBy t w w' := by
  refine passesBy_of_journal_eq ?_ hjournal
  unfold trigger
  rw [htriggers]

theorem PassesBy.trans {w₂ : World} (h₁ : PassesBy t w w₁) (hcreated : w.Created t → w₁.Created t)
    (h₂ : PassesBy t w₁ w₂) : PassesBy t w w₂ := by
  rcases h₁.journal with ⟨added₁, hj₁, hnone₁⟩
  rcases h₂.journal with ⟨added₂, hj₂, hnone₂⟩
  refine ⟨?_, added₂ ++ added₁, ?_, fun e he => ?_⟩
  · rcases h₂.state with hsame | ⟨hnew, hpend⟩
    · rw [hsame]
      exact h₁.state
    · exact .inr ⟨mt hcreated hnew, hpend⟩
  · rw [hj₂, hj₁, List.append_assoc]
  · rcases List.mem_append.mp he with he | he
    · exact hnone₂ e he
    · exact hnone₁ e he

theorem Step.passesBy (h : Step f w w') (t : TriggerRef) : PassesBy t w w' := by
  cases h with
  | visit s =>
    refine ⟨.inl rfl, [.start s w.now], rfl, fun e he => ?_⟩
    rw [List.mem_singleton.mp he]
    exact id
  | install c deadline isReturn span hf =>
    have htriggers : (w.install c deadline isReturn span).triggers =
        w.triggers.push (w.installed c deadline isReturn span) := by rw [install_eq]
    constructor
    · by_cases ht : t = w.nextTrigger
      · -- one that is refused reads as nobody's reference did before
        subst ht
        rw [trigger_push_self htriggers, trigger_of_not_created (not_created_nextTrigger w)]
        by_cases hin : w.letsIn c
        · exact .inr ⟨not_created_nextTrigger w, if_pos hin⟩
        · exact .inl (if_neg hin)
      · rw [trigger_push_of_ne htriggers ht]
        exact .inl rfl
    · rw [install_eq]
      refine ⟨_, rfl, fun e he => ?_⟩
      split at he
      · rw [List.mem_singleton.mp he]
        exact id
      · cases he
  | _ => exact passesBy_of_eq rfl rfl

/-- A look at another trigger. -/
theorem passesBy_looked {e : Expr} {r : Except Stop Value} (h : (e.eval f).runFrom w = (r, w₁))
    (hu : u ≠ t) (held : Bool) :
    PassesBy t w (w₁.looked u held) := by
  rcases eval_leaves h with ⟨heap, slots, rfl⟩
  refine ⟨.inl rfl, [.look u held], rfl, fun e he => ?_⟩
  rw [List.mem_singleton.mp he]
  exact hu

/-- Another trigger leaves the pending state. -/
theorem passesBy_concluded (state : TriggerState) (c : Captured) (hu : u ≠ t) :
    PassesBy t w (w.concluded u state c) := by
  refine ⟨.inl (by rw [trigger_concluded_of_ne state c hu.symm]), _, rfl, fun e he => ?_⟩
  obtain ⟨body, -, rfl⟩ := List.mem_map.mp he
  exact hu

/-- What one turn does to one trigger. -/
inductive Fares (t : TriggerRef) (p : Phase) (w w' : World) : Prop where
  | passed (h : PassesBy t w w')
  | unmet {seen todo} (hp : p = .pass seen (t :: todo))
      (hpend : (w.trigger t).state = .pending) (hstate : (w'.trigger t).state = .pending)
      (hjournal : w'.journal = .look t false :: w.journal)
  | fires {seen todo c} (hp : p = .pass seen (t :: todo))
      (hpend : (w.trigger t).state = .pending) (hstate : (w'.trigger t).state = .fired)
      (hc : (w.trigger t).captured = some c)
      (hjournal : w'.journal = .body t .fired c.body :: .look t true :: w.journal)
  | timesOut {now todo c}
      (hp : p = .expiry now (t :: todo)) (hpend : (w.trigger t).state = .pending)
      (hstate : (w'.trigger t).state = .timedOut) (hc : (w.trigger t).captured = some c)
      (hjournal : w'.journal = c.timeoutBody.toList.map (.body t .timedOut) ++ w.journal)
  | cancelled (hpend : (w.trigger t).state = .pending)
      (hstate : (w'.trigger t).state = .cancelled) (hjournal : w'.journal = w.journal)

theorem Turn.fares (hr : Roster p w) (h : Turn op done (p, w) (p', w')) (t : TriggerRef) :
    Fares t p w w' := by
  cases h with
  | step hstep => exact .passed (hstep.passesBy t)
  | result _ _ u v =>
    exact .passed (passesBy_of_journal_eq ((sameRoster_result w u v).state t) rfl)
  | closeSession _ s =>
    have htr := hr.trigger_closeSession s t
    have hjournal := (closeSession_fields s w).1
    split at htr
    · rename_i howned
      exact .cancelled howned.2.2 (by rw [htr]) hjournal
    · exact .passed (passesBy_of_journal_eq (by rw [htr]) hjournal)
  | cancelAll =>
    rcases cancelAll_eq w with ⟨trs, stats, heq, -⟩
    have htr := trigger_cancelAll w t
    have hjournal : w.cancelAll.journal = w.journal := by rw [heq]
    split at htr
    · rename_i hlisted
      exact .cancelled hlisted.2 (by rw [htr]) hjournal
    · exact .passed (passesBy_of_journal_eq (by rw [htr]) hjournal)
  | @unmet seen todo u c _ w₁ r hpend hc heval hunmet =>
    by_cases hu : u = t
    · subst hu
      refine .unmet rfl hpend ?_ ?_
      · rw [(sameRoster_looked heval u false).state, hpend]
      · rcases eval_leaves heval with ⟨heap, slots, rfl⟩
        rfl
    · exact .passed (passesBy_looked heval hu false)
  | @fires seen todo u c _ w₁ v hpend hc heval hv =>
    by_cases hu : u = t
    · subst hu
      refine .fires rfl hpend ?_ hc ?_
      · have hlook := (sameRoster_looked heval u true).remains (created_of_pending hpend)
        rw [trigger_concluded_self .fired c hlook.created]
      · rcases eval_leaves heval with ⟨heap, slots, rfl⟩
        rfl
    · refine .passed ((passesBy_looked heval hu true).trans ?_ (passesBy_concluded .fired c hu))
      exact fun ht => ((sameRoster_looked heval u true).remains ht).created
  | endBatch seen =>
    rw [hr.endBatch_eq]
    exact .passed (passesBy_of_eq rfl rfl)
  | @timesOut now todo u c _ hpend hc =>
    by_cases hu : u = t
    · subst hu
      refine .timesOut rfl hpend ?_ hc rfl
      rw [trigger_concluded_self .timedOut c (created_of_pending hpend)]
    · exact .passed (passesBy_concluded .timedOut c hu)
  | _ => exact .passed (passesBy_of_eq rfl rfl)

end World

end Vigil
