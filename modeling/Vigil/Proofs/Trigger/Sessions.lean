import Vigil.Proofs.Trigger.Fates
import Vigil.Proofs.Trigger.LifeCycle

/-!
# Vigil.Proofs.Trigger.Sessions — closed sessions

A session that was closed is never open again, as numbers of sessions are not
given twice. So no trigger of it is ever listed or in hand from then on, and
only those run bodies (`Silenced`). A frame of the session can still be used,
and what a script registers there is refused.
-/

namespace Vigil.World

variable {op : HostOp} {done : Prop} {p p' : Phase} {w w' base : World} {t : TriggerRef}
  {s : SessionId}

/-- The session is closed, and since `base` no trigger of it ran a body. -/
structure Silenced (s : SessionId) (base : World) (p : Phase) (w : World) : Prop where
  closed : w.isOpen s = false
  numbered : s < w.nextSession
  foreign : ∀ t ∈ queue p w, (w.trigger t).session ≠ some s
  /-- Triggers nobody created yet may come to belong to the session. -/
  silent : ∀ t, (w.Created t → (w.trigger t).session = some s) → w.bodiesRun t = base.bodiesRun t

/-- A trigger of the session in hand would be needed for a body of it to
run. -/
theorem Silenced.bodiesRun_eq (hr : Roster p w) (hs : Silenced s base p w)
    (h : Turn op done (p, w) (p', w')) (ht : w.Created t → (w.trigger t).session = some s) :
    w'.bodiesRun t = w.bodiesRun t := by
  have hhand : (w.trigger t).state = .pending → t ∉ queue p w := by
    intro hpend hmem
    exact hs.foreign t hmem (ht (created_of_pending hpend))
  cases h.fares hr t with
  | passed hpass => exact hpass.bodiesRun_eq
  | unmet hp hpend hstate hjournal =>
    rw [bodiesRun, hjournal]
    rfl
  | fires hp hpend =>
    subst hp
    refine absurd ?_ (hhand hpend)
    exact List.mem_append_left _ (List.mem_append_right _ List.mem_cons_self)
  | timesOut hp hpend =>
    subst hp
    exact absurd (List.mem_append_left _ List.mem_cons_self) (hhand hpend)
  | cancelled hpend hstate hjournal => rw [bodiesRun, hjournal, bodiesRun]

theorem Silenced.turn (hr : Roster p w) (hs : Silenced s base p w)
    (h : Turn op done (p, w) (p', w')) : Silenced s base p' w' := by
  rcases h.sessions hr with ⟨hnext, hopened⟩
  constructor
  · -- a session opened now has a number of its own
    rw [Bool.eq_false_iff]
    intro hopen
    rcases hopened s hopen with hold | hnew
    · rw [hs.closed] at hold
      cases hold
    · have hlt := hs.numbered
      rw [hnew] at hlt
      exact absurd hlt (Nat.lt_irrefl _)
  · exact Nat.lt_of_lt_of_le hs.numbered hnext
  · intro t ht
    rcases h.queue hr ht with hold | ⟨-, hnew⟩
    · rw [(h.remains hr (hr.created_of_queue hold)).session]
      exact hs.foreign t hold
    · -- what was let in belongs to no closed session
      intro hsession
      have hopen := hnew s hsession
      rw [hs.closed] at hopen
      cases hopen
  · intro t ht
    have hbefore : w.Created t → (w.trigger t).session = some s := by
      intro hc
      have hrem := h.remains hr hc
      rw [← hrem.session]
      exact ht hrem.created
    rw [hs.bodiesRun_eq hr h hbefore]
    exact hs.silent t hbefore

/-- Closing an open session silences it. -/
theorem Roster.silenced (hr : Roster .rest w) (hs : w.isOpen s) :
    Silenced s w .rest (w.closeSession s) := by
  rcases hr.closeSession_lists s with ⟨hpending, hfresh⟩
  rcases closeSession_fields s w with ⟨hjournal, hnext, -⟩
  constructor
  · rw [Bool.eq_false_iff]
    intro hopen
    exact (isOpen_closeSession.mp hopen).2 rfl
  · rw [hnext]
    exact hr.numbered s hs
  · intro t ht
    rw [queue, hpending, hfresh, ← List.filter_append, Phase.hand, List.nil_append,
      List.mem_filter, bne_iff_ne] at ht
    rw [hr.trigger_closeSession, if_neg fun h => ht.2 h.2.1]
    exact ht.2
  · intro t _
    rw [bodiesRun, hjournal, bodiesRun]

/-- Once an open session was closed, no trigger of it runs a body in any future,
be it of before or of after the closing. Closing leaves the triggers of other
sessions and of none as they are, and in their order. -/
theorem closed_session_stays_silent (hw : Possible w) (s : SessionId) :
    (w.isOpen s → ∀ w', Ever (w.closeSession s) w' → ∀ t, (w'.trigger t).session = some s →
        w'.bodiesRun t = w.bodiesRun t) ∧
      (∀ t, (w.trigger t).session ≠ some s → (w.closeSession s).trigger t = w.trigger t) ∧
      (w.closeSession s).pending = w.pending.filter (fun t => (w.trigger t).session != some s) ∧
      (w.closeSession s).fresh = w.fresh.filter fun t => (w.trigger t).session != some s := by
  have hr := hw.roster
  refine ⟨?_, fun t ht => ?_, hr.closeSession_lists s⟩
  · intro hs w' hlater t ht
    have hend := hlater.invariant (fun _ _ _ _ _ _ hr hs hturn => hs.turn hr hturn)
      (hr.closeSession s) (hr.silenced hs)
    exact hend.2.silent t fun _ => ht
  · rw [hr.trigger_closeSession, if_neg fun h => ht h.2.1]

/-- A unit that waits for what holds already. -/
def whenTrue : Script :=
  .build ⟨"wait", .toplevel, none, [],
    .when (.const (.bool true)) .null none false⟩ 0

/-- A session with a trigger that waits is closed. Its frame is used again, a
new session is opened and a pass made: only the trigger of no session fires. -/
theorem closed_session_stays_silent_when_reused :
    ∃ w w' : World, Possible w ∧ w.isOpen 1 ∧ Ever (w.closeSession 1) w' ∧
      w.fresh = [⟨0⟩, ⟨1⟩] ∧ (w.closeSession 1).fresh = [⟨1⟩] ∧
      (w'.trigger ⟨0⟩).session = some 1 ∧ w'.bodiesRun ⟨0⟩ = w.bodiesRun ⟨0⟩ ∧
      (w'.trigger ⟨2⟩).session = some 1 ∧ w'.bodiesRun ⟨2⟩ = w.bodiesRun ⟨2⟩ ∧
      (w'.bodiesRun ⟨1⟩).map Prod.fst = [.fired] := by
  let w₁ := (HostOp.newSession.perform 1).leaves (.start default default)
  let w₂ := ((HostOp.newFrame 0 (some 1)).perform 1).leaves w₁
  let w₃ := ((HostOp.newFrame 0 none).perform 1).leaves w₂
  let w₄ := ((HostOp.run whenTrue ⟨0⟩).perform 1).leaves w₃
  let w := ((HostOp.run whenTrue ⟨1⟩).perform 1).leaves w₄
  let v₁ := ((HostOp.run whenTrue ⟨0⟩).perform 1).leaves (w.closeSession 1)
  let v₂ := (HostOp.newSession.perform 1).leaves v₁
  let w' := (HostOp.checkAll.perform 1).leaves v₂
  have hstart : Ever (.start default default) w₁ := Ever.perform .refl _ 1
  have hw : Possible w :=
    ⟨default, default, ((((hstart.perform _ 1).perform _ 1).perform _ 1).perform _ 1)⟩
  have hagain : Ever (w.closeSession 1) v₁ := Ever.perform .refl _ 1
  have hlater : Ever (w.closeSession 1) w' := (hagain.perform _ 1).perform _ 1
  have hopen : w.isOpen 1 := by decide +kernel
  rcases closed_session_stays_silent hw 1 with ⟨hsilent, -, -, hfresh⟩
  have hold : (w'.trigger ⟨0⟩).session = some 1 := by decide +kernel
  have hnew : (w'.trigger ⟨2⟩).session = some 1 := by decide +kernel
  have hlisted : w.fresh.filter (fun t => (w.trigger t).session != some 1) = [⟨1⟩] := by
    decide +kernel
  refine ⟨w, w', hw, hopen, hlater, by decide +kernel, hfresh.trans hlisted, hold,
    hsilent hopen w' hlater _ hold, hnew, hsilent hopen w' hlater _ hnew, by decide +kernel⟩

end Vigil.World
