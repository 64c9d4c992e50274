import Vigil.Proofs.Build.Numbers
import Vigil.Proofs.Trigger.Upheld

/-!
# Vigil.Proofs.Trigger.Accounts — the accounts of a history

Between two operations of the host nothing is owed: every trigger that fired,
timed out or was cancelled is counted, once, and every `when` that was executed
as registered or as refused (`World.upheld_tally`). A trigger that was let in is
seen after the operation that created it in a state other than cancelled, since
no operation that runs code cancels anything; so a history tells those that
were let in from those that were refused (`World.Accepted`), and the counters
agree with it (`World.accounts_balance`).
-/

namespace Vigil

namespace World

open Function (update)

variable {state : TriggerState} {form : Option (StmtId → StmtTag)} {b w w' : World}
  {owed : TriggerState → Nat} {t : TriggerRef} {fuel : Nat}

/-! ## One trigger -/

theorem Tally.runBody (h : Tally form b owed w) {body : Stmt} (hbody : body.Numbered form)
    {f : FrameRef} (hrun : (runBody fuel t f body).runFrom w = (.ok (), w')) :
    Tally form b owed w' := by
  obtain ⟨r, w₁, hx, hback, hkept⟩ := runBody_apart hrun
  have h₁ : Tally form b owed w₁ := h.exec hbody hx hback
  rcases hkept with rfl | ⟨v, rfl⟩
  · exact h₁
  · refine h₁.same (by simp [modifyTrigger]) (fun u => ?_) rfl fun _ _ => rfl
    obtain ⟨r', hr⟩ := trigger_modifyTrigger_result w₁ t u v
    rw [hr]
    exact ⟨rfl, rfl⟩

/-- A trigger that fires or times out is owed to the counter of its state. -/
theorem Tally.settle (h : Tally form b owed w) (hpend : (w.trigger t).state = .pending)
    {c : Captured} (hc : c.Numbered form) (hstate : state = .fired ∨ state = .timedOut)
    (hrun : (settle fuel t state c).runFrom w = (.ok (), w')) :
    Tally form b (update owed state (owed state + 1)) w' := by
  have hleave : Tally form b (update owed state (owed state + 1)) (w.leave t state) := by
    refine h.leave hpend ?_ fun hcancel => ?_
    · rcases hstate with rfl | rfl <;> rfl
    · rcases hstate with rfl | rfl <;> cases hcancel
  obtain ⟨-, rfl⟩ | ⟨body, hb, hrun⟩ := settle_apart hrun
  · exact hleave
  · have hbody : body.Numbered form := by
      rcases hstate with rfl | rfl
      · cases hb
        exact hc.body
      · exact hc.timeoutBody body hb
    have hnote : Tally form b (update owed state (owed state + 1)) (w.settled t state body) :=
      hleave.of_triggers rfl rfl fun _ _ => List.countP_cons_of_neg nofun
    exact hnote.runBody hbody hrun

/-- No operation of the host leaves anything owed. -/
theorem upheld_tally (form : Option (StmtId → StmtTag)) (b : World) :
    Upheld (fun s => s.body.Numbered form) b (Tally form b) where
  still h htriggers hstats hjournal :=
    h.of_triggers htriggers hstats fun _ _ => by rw [World.whens, hjournal]; rfl
  looked _ _ h := h.of_triggers rfl rfl fun _ _ => List.countP_cons_of_neg nofun
  cancel h hpend hb := h.leave hpend rfl fun _ => hb
  settle h hpend hc hstate hrun := h.settle hpend (h.numbered _ _ hc) hstate hrun
  pay h hstate := h.pay hstate
  run h hs hrun hback := h.exec hs hrun hback

/-! ## Histories -/

variable {past : List World}

/-- A trigger was let in: the host saw it in a state other than cancelled. -/
def Accepted (seen : List World) (t : TriggerRef) : Bool :=
  seen.any fun w => (w.trigger t).state ≠ .cancelled

/-- What holds between operations. -/
structure Books (form : Option (StmtId → StmtTag)) (w : World) (past : List World) : Prop where
  tally : Tally form w (fun _ => 0) w
  refused : w.stats.refused = w.census fun t _ => !Accepted (w :: past) t
  grows : ∀ u ∈ past, u.triggers.size ≤ w.triggers.size

/-- Triggers of a later world: those there before, and new ones. -/
theorem census_of_le {p : TriggerRef → Trigger → Bool}
    (hsize : w.triggers.size ≤ w'.triggers.size) :
    w'.census p = (w.refs.countP fun t => p t (w'.trigger t)) +
      w'.census fun t tr => !decide (w.Created t) && p t tr := by
  obtain ⟨k, hk⟩ := Nat.exists_eq_add_of_le hsize
  have hrefs : w'.refs = w.refs ++ (List.range k).map fun i => ⟨w.triggers.size + i⟩ := by
    unfold refs
    rw [hk, List.range_add, List.map_append, List.map_map]
    rfl
  have hold : w.refs.countP (fun t => !decide (w.Created t) && p t (w'.trigger t)) = 0 := by
    refine List.countP_eq_zero.mpr fun t ht => ?_
    simp [mem_refs.mp ht]
  unfold census
  rw [hrefs, List.countP_append, List.countP_append, hold, Nat.zero_add]
  refine congrArg _ (List.countP_congr fun t ht => ?_)
  obtain ⟨i, -, rfl⟩ := List.mem_map.mp ht
  have hnot : ¬ w.Created ⟨w.triggers.size + i⟩ := Nat.not_lt.mpr (Nat.le_add_right _ _)
  simp [hnot]

/-- From here on refusals are told from those up to now. -/
theorem Tally.rebase {b : World} {owed : TriggerState → Nat} (h : Tally form b owed w) :
    Tally form w owed w := by
  refine ⟨Nat.le_refl _, h.reached, h.created, ?_, h.whens, h.numbered⟩
  have hnone : w.census (fun t tr => !decide (w.Created t) && tr.state = .cancelled) = 0 := by
    refine List.countP_eq_zero.mpr fun t ht => ?_
    simp [mem_refs.mp ht]
  rw [hnone]
  rfl

theorem Books.start (now : Instant) (limits : Limits) : Books form (.start now limits) [] where
  tally := by
    refine ⟨Nat.le_refl _, fun s hs => ?_, rfl, rfl, fun _ _ => rfl, fun t c hc => ?_⟩
    · cases s <;> rfl
    · cases hc
  refused := rfl
  grows := fun _ hu => by cases hu

theorem Books.step (h : Books form w past) (hl : Ledger .rest w) {op : HostOp}
    (hop : op.RunsOnly fun s => s.body.Numbered form)
    (hrun : (op.perform fuel).runFrom w = (.ok (), w')) : Books form w' (w :: past) := by
  obtain ⟨-, ho⟩ := hl.hostStep ⟨op, fuel, hrun⟩
  have htally := (upheld_tally form w).perform hl.toRoster h.tally hop hrun
  have hgrows : ∀ u ∈ w :: past, u.triggers.size ≤ w'.triggers.size := by
    intro u hu
    rcases List.mem_cons.mp hu with rfl | hu
    · exact htally.base
    · exact Nat.le_trans (h.grows u hu) htally.base
  refine ⟨htally.rebase, ?_, hgrows⟩
  -- a trigger that was there and never let in stays cancelled
  have hold : w.refs.countP (fun t => !Accepted (w' :: w :: past) t) =
      w.census fun t _ => !Accepted (w :: past) t := by
    refine List.countP_congr fun t ht => ?_
    have hcreated := mem_refs.mp ht
    have hstays : (w.trigger t).state = .cancelled → (w'.trigger t).state = .cancelled := by
      intro hc
      rw [ho.state t hcreated (by rw [hc]; rfl), hc]
    simp only [Accepted, List.any_cons]
    grind
  -- a new one was in no world before
  have hnew : (w'.census fun t _ => !decide (w.Created t) && !Accepted (w' :: w :: past) t) =
      w'.census fun t tr => !decide (w.Created t) && tr.state = .cancelled := by
    refine List.countP_congr fun t ht => ?_
    by_cases hc : w.Created t
    · simp [hc]
    · have hbefore : Accepted (w :: past) t = false := by
        refine List.any_eq_false.mpr fun u hu => ?_
        have hsize : u.triggers.size ≤ w.triggers.size := by
          rcases List.mem_cons.mp hu with rfl | hu
          · exact Nat.le_refl _
          · exact h.grows u hu
        have hu' : ¬ u.Created t := fun hcr => hc (Nat.lt_of_lt_of_le hcr hsize)
        rw [trigger_of_not_created hu']
        simp [default]
      have hcons : Accepted (w' :: w :: past) t =
          (decide ((w'.trigger t).state ≠ .cancelled) || Accepted (w :: past) t) := rfl
      dsimp only
      rw [hcons, hbefore]
      simp
  have hcensus := census_of_le (p := fun t _ => !Accepted (w' :: w :: past) t) htally.base
  rw [hold, hnew, ← h.refused] at hcensus
  rw [hcensus]
  exact htally.refused

theorem History.books {allowed : Script → Prop} (h : History allowed (w :: past))
    (hform : ∀ s, allowed s → s.body.Numbered form) :
    Books form w past := by
  have hops : ∀ op : HostOp, op.RunsOnly allowed → op.RunsOnly fun s => s.body.Numbered form := by
    intro op hop
    cases op with
    | run script f => exact hform script hop
    | _ => trivial
  generalize hws : w :: past = ws at h
  induction h generalizing w past with
  | start now limits =>
    cases hws
    exact .start now limits
  | step h hop hrun ih =>
    cases hws
    exact (ih rfl).step h.ledger (hops _ hop) hrun

/-! ## Sums -/

theorem census_split (q p : TriggerRef → Trigger → Bool) (w : World) :
    w.census p = (w.census fun t tr => q t tr && p t tr) +
      w.census fun t tr => !q t tr && p t tr := by
  unfold census
  induction w.refs with
  | nil => rfl
  | cons t ts ih =>
    simp only [List.countP_cons]
    rw [ih]
    cases q t (w.trigger t) <;> cases p t (w.trigger t) <;> simp <;> omega

/-- Every trigger is in one of the four states. -/
theorem size_eq_countIn (w : World) : w.triggers.size =
    w.countIn .pending + w.countIn .fired + w.countIn .timedOut + w.countIn .cancelled := by
  unfold countIn census
  rw [← length_refs]
  induction w.refs with
  | nil => rfl
  | cons t ts ih =>
    simp only [List.countP_cons, List.length_cons]
    rw [ih]
    cases (w.trigger t).state <;> simp <;> omega

/-- Exactly the waiting triggers are listed, each once. -/
theorem Ledger.pendingCount_eq (hl : Ledger .rest w) : w.pendingCount = w.countIn .pending := by
  have hperm : (w.pending ++ w.fresh).Perm
      (w.refs.filter fun t => (w.trigger t).state = .pending) := by
    refine (List.perm_ext_iff_of_nodup hl.nodup (w.nodup_refs.filter _)).mpr fun t => ?_
    rw [List.mem_filter, mem_refs, decide_eq_true_iff]
    constructor
    · intro ht
      exact ⟨created_of_pending (hl.listed t ht), hl.listed t ht⟩
    · rintro ⟨-, hp⟩
      exact hl.waits t hp
  unfold countIn census pendingCount
  rw [List.countP_eq_length_filter, ← hperm.length_eq, List.length_append]

/-- The accounts of a history. Triggers that were let in have fired, timed out,
been cancelled or still wait, and the counters tell how many of each. Every
`when` that was executed made a trigger that was let in or refused; the journal
tells a `when` by its number, in whatever units the scripts come from. -/
theorem accounts_balance {allowed : Script → Prop} {past : List World}
    (h : History allowed (w :: past)) :
    w.stats.registered =
      w.stats.fired + w.stats.timedOut + w.stats.cancelled + w.pendingCount ∧
    w.stats.registered = w.census (fun t _ => Accepted (w :: past) t) ∧
    w.stats.fired = w.census (fun t tr => Accepted (w :: past) t && tr.state = .fired) ∧
    w.stats.timedOut = w.census (fun t tr => Accepted (w :: past) t && tr.state = .timedOut) ∧
    w.stats.cancelled = w.census (fun t tr => Accepted (w :: past) t && tr.state = .cancelled) ∧
    w.stats.refused = w.census (fun t _ => !Accepted (w :: past) t) ∧
    ∀ units : List (Doc.Unit × StmtId), Script.Apart units →
      (∀ s, allowed s → s ∈ units.map fun a => Script.build a.1 a.2) →
      w.stats.registered + w.stats.refused = w.whens (Script.formIn units) := by
  have hb : Books none w past := h.books fun _ _ _ hg => by cases hg
  have hsize := w.size_eq_countIn
  have hpending := h.ledger.pendingCount_eq
  have hcreated := hb.tally.created
  have hfired : w.countIn .fired = w.stats.fired := hb.tally.reached .fired rfl
  have htimedOut : w.countIn .timedOut = w.stats.timedOut := hb.tally.reached .timedOut rfl
  have hcancelled : w.countIn .cancelled = w.stats.cancelled + w.stats.refused :=
    hb.tally.reached .cancelled rfl
  -- what was never let in is cancelled
  have hseen : ∀ t, (w.trigger t).state ≠ .cancelled → Accepted (w :: past) t = true := by
    intro t ht
    simp [Accepted, ht]
  have hin : ∀ s, s ≠ .cancelled →
      (w.census fun t tr => Accepted (w :: past) t && tr.state = s) = w.countIn s := by
    intro s hs
    refine List.countP_congr fun t _ => ?_
    by_cases hst : (w.trigger t).state = s
    · simp [hst, hseen t (by rw [hst]; exact hs)]
    · simp [hst]
  have hout : (w.census fun t tr => !Accepted (w :: past) t && tr.state = .cancelled) =
      w.census fun t _ => !Accepted (w :: past) t := by
    refine List.countP_congr fun t _ => ?_
    by_cases hst : (w.trigger t).state = .cancelled
    · simp [hst]
    · simp [hseen t hst]
  have hsplit : w.countIn .cancelled = _ :=
    census_split (fun t _ => Accepted (w :: past) t) (fun _ tr => tr.state = .cancelled) w
  have hall : w.triggers.size = (w.census fun t _ => Accepted (w :: past) t) +
      w.census fun t _ => !Accepted (w :: past) t := by
    have := census_split (fun t _ => Accepted (w :: past) t) (fun _ _ => true) w
    simp only [Bool.and_true] at this
    rw [← this, ← length_refs]
    exact (List.countP_eq_length.mpr fun _ _ => rfl).symm
  have hrefused := hb.refused
  rw [hout, ← hrefused] at hsplit
  rw [← hrefused] at hall
  refine ⟨?_, ?_, ?_, ?_, ?_, hrefused, fun units hapart hunits => ?_⟩
  · omega
  · omega
  · rw [hin .fired nofun, hfired]
  · rw [hin .timedOut nofun, htimedOut]
  · omega
  · have hform : ∀ s, allowed s → s.body.Numbered (some (Script.formIn units)) := by
      intro s hs g hg t ht
      cases hg
      obtain ⟨a, ha, rfl⟩ := List.mem_map.mp (hunits s hs)
      exact Script.tag_eq_formIn hapart (List.mem_flatMap.mpr ⟨a, ha, ht⟩)
    rw [(h.books hform).tally.whens _ rfl, hcreated]

/-- A unit that waits four times: for what holds, twice for what does not, and
once for that with a time limit. -/
def fourWhens : Doc.Unit :=
  let waits (test : Bool) (timeout : Option Doc.Timeout) : Doc.Stmt :=
    .when (.const (.bool test)) .null timeout false
  ⟨"four", .toplevel, none, [],
    .list [waits true none, waits false (some (.mk (.const (.interval (.ofInt 5))) none)),
      waits false none, waits false none]⟩

/-- With room for three triggers the last `when` is refused. Of the others one
fires, one times out and one is cancelled. -/
theorem accounts_balance_four :
    ∃ w past, History (· = Script.build fourWhens 0) (w :: past) ∧
      w.whens (Script.formIn [(fourWhens, 0)]) = 4 ∧ w.stats.refused = 1 ∧
      w.stats.registered = 3 ∧ w.pendingCount = 0 ∧
      w.census (fun t tr => Accepted (w :: past) t && tr.state = .fired) = 1 ∧
      w.census (fun t tr => Accepted (w :: past) t && tr.state = .timedOut) = 1 ∧
      w.census (fun t tr => Accepted (w :: past) t && tr.state = .cancelled) = 1 := by
  let script := Script.build fourWhens 0
  let w₀ := World.start default { (default : Limits) with maxPending := some 3 }
  let w₁ := ((HostOp.newFrame 0 none).perform 3).leaves w₀
  let w₂ := ((HostOp.run script ⟨0⟩).perform 3).leaves w₁
  let w₃ := (HostOp.checkAll.perform 3).leaves w₂
  let w₄ := ((HostOp.expire ⟨9, 0, by decide⟩).perform 3).leaves w₃
  let w₅ := (HostOp.cancelAll.perform 3).leaves w₄
  have h₁ : History (· = script) [w₁, w₀] :=
    (History.start _ _).perform (.newFrame 0 none) 3 trivial (by decide +kernel)
  have h₂ := h₁.perform (.run script ⟨0⟩) 3 rfl (by decide +kernel)
  have h₃ := h₂.perform .checkAll 3 trivial (by decide +kernel)
  have h₄ := h₃.perform (.expire ⟨9, 0, by decide⟩) 3 trivial (by decide +kernel)
  have h₅ : History (· = script) [w₅, w₄, w₃, w₂, w₁, w₀] :=
    h₄.perform .cancelAll 3 trivial (by decide +kernel)
  have hstats : w₅.stats = ⟨3, 1, 1, 1, 1⟩ := by decide +kernel
  obtain ⟨hsum, -, hfired, htimedOut, hcancelled, -, hwhens⟩ := accounts_balance h₅
  have hall := hwhens [(fourWhens, 0)] (by decide +kernel) fun s hs => List.mem_singleton.mpr hs
  rw [hstats] at hsum hfired htimedOut hcancelled hall
  refine ⟨w₅, _, h₅, hall.symm, by rw [hstats], by rw [hstats], ?_, hfired.symm,
    htimedOut.symm, hcancelled.symm⟩
  exact (Nat.add_left_cancel hsum).symm

end World

end Vigil
