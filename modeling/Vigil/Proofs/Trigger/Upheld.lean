import Vigil.Proofs.Trigger.LifeCycle
import Vigil.Proofs.Trigger.Tally

/-!
# Vigil.Proofs.Trigger.Upheld — what the operations of a host uphold

For a property of worlds that depends on the triggers, on the counters and on
how often statements started, it is enough to look at six things: nothing of
this changes, a trigger is looked at, one is cancelled, one fires or times out
and runs its body, a counter is raised, a script is run (`World.Upheld`).

The counters are raised apart from what they count: a trigger that fires is
counted after its body ran, those that time out or are cancelled together when
all of them have. So the property may depend on how many triggers have reached
a state and are not counted yet. An operation owes nothing at its end
(`Upheld.perform`).
-/

namespace Vigil

/-- The script of an operation, if it runs one, is among those allowed. -/
def HostOp.RunsOnly (allowed : Script → Prop) : HostOp → Prop
  | .run script _ => allowed script
  | _ => True

namespace World

open Function (update)

variable {allowed : Script → Prop} {w : World} {past : List World}

/-- Worlds between the operations of a history, the latest first. Of scripts it
runs those allowed. -/
inductive History (allowed : Script → Prop) : List World → Prop where
  | start (now : Instant) (limits : Limits) : History allowed [.start now limits]
  | step {w w' : World} {past : List World} {op : HostOp} {fuel : Nat}
      (h : History allowed (w :: past)) (hop : op.RunsOnly allowed)
      (hrun : (op.perform fuel).runFrom w = (.ok (), w')) : History allowed (w' :: w :: past)

/-- An operation that returns goes on with a history. -/
theorem History.perform (h : History allowed (w :: past)) (op : HostOp) (fuel : Nat)
    (hop : op.RunsOnly allowed) (hok : ((op.perform fuel).runFrom w).1.isOk) :
    History allowed ((op.perform fuel).leaves w :: w :: past) :=
  h.step hop (Exec.runFrom_of_isOk hok)

theorem History.ledger (h : History allowed (w :: past)) : Ledger .rest w := by
  generalize hws : w :: past = ws at h
  induction h generalizing w past with
  | start now limits =>
    cases hws
    exact .start now limits
  | step _ _ hrun ih =>
    cases hws
    exact ((ih rfl).hostStep ⟨_, _, hrun⟩).1

/-- What an operation does with triggers, counters and scripts keeps the
property, which depends on what is owed to the counters. Only triggers of the
world `b` are cancelled. -/
structure Upheld (allowed : Script → Prop) (b : World)
    (I : (TriggerState → Nat) → World → Prop) : Prop where
  still : ∀ {owed : TriggerState → Nat} {w w' : World}, I owed w → w'.triggers = w.triggers →
    w'.stats = w.stats → w'.journal = w.journal → I owed w'
  looked : ∀ {owed : TriggerState → Nat} {w : World} (t : TriggerRef) (held : Bool), I owed w →
    I owed (w.looked t held)
  cancel : ∀ {owed : TriggerState → Nat} {w : World} {t : TriggerRef}, I owed w →
    (w.trigger t).state = .pending → b.Created t →
    I (update owed .cancelled (owed .cancelled + 1)) (w.leave t .cancelled)
  settle : ∀ {owed : TriggerState → Nat} {w w' : World} {fuel : Nat} {t : TriggerRef}
    {c : Captured} {state : TriggerState}, I owed w → (w.trigger t).state = .pending →
    (w.trigger t).captured = some c → state = .fired ∨ state = .timedOut →
    (settle fuel t state c).runFrom w = (.ok (), w') →
    I (update owed state (owed state + 1)) w'
  pay : ∀ {owed : TriggerState → Nat} {w : World} {state : TriggerState} {k : Nat},
    I (update owed state (owed state + k)) w → state.isTerminal →
    I owed (w.modifyStats fun s => s.raise state k)
  run : ∀ {owed : TriggerState → Nat} {w w' : World} {fuel : Nat} {f : FrameRef}
    {script : Script} {r : Except Stop Outcome}, I owed w → allowed script →
    (script.body.exec fuel f).runFrom w = (r, w') → Exec.cameBack r → I owed w'

/-- Owing for one trigger and then for more. -/
theorem update_owed (owed : TriggerState → Nat) (s : TriggerState) (n : Nat) :
    update (update owed s (owed s + 1)) s (update owed s (owed s + 1) s + n) =
      update owed s (owed s + (n + 1)) := by
  rw [Function.update_self, Function.update_idem, Nat.add_right_comm, Nat.add_assoc]

namespace Upheld

variable {allowed : Script → Prop} {I : (TriggerState → Nat) → World → Prop}
  {owed : TriggerState → Nat} {b w w' : World} {fuel : Nat} {t : TriggerRef}
  {ts : List TriggerRef} {state : TriggerState}

/-! ## Passes -/

/-- A look at a waiting trigger pays at once what it owes. -/
theorem check (u : Upheld allowed b I) (h : I owed w) (hpend : (w.trigger t).state = .pending)
    (hrun : (check fuel t).runFrom w = (.ok state, w')) :
    I owed (w'.counted state) ∧
      ∀ s, s ≠ t → w.Created s → (w'.counted state).trigger s = w.trigger s := by
  -- a trigger that still waits is not counted
  have hwaits : (w'.trigger t).state = .pending → state = (w'.trigger t).state →
      w'.counted state = w' := by
    intro hp hs
    rw [hs, hp]
    rfl
  obtain ⟨hs, rfl | ⟨c, held, w₁, -, hc, hholds, hrun⟩⟩ := check_apart hrun
  · rw [hwaits hpend hs]
    exact ⟨h, fun _ _ _ => rfl⟩
  · obtain ⟨heap, slots, rfl⟩ := holds_leaves hholds
    have hlook : ∀ held, I owed ((w.withStore c.frame heap slots).looked t held) :=
      fun held => u.looked t held (u.still h rfl rfl rfl)
    cases held
    · cases hrun
      rw [hwaits hpend hs]
      exact ⟨hlook false, fun _ _ _ => rfl⟩
    · rw [if_pos rfl] at hrun
      have hpend₁ : (((w.withStore c.frame heap slots).looked t true).trigger t).state = .pending :=
        hpend
      obtain ⟨hfired, hother⟩ := trigger_settle (created_of_pending hpend₁) hrun
      have hcount : w'.counted state = w'.modifyStats fun s => s.raise .fired 1 := by
        rw [hs, hfired]
        rfl
      rw [hcount]
      exact ⟨u.pay (u.settle (hlook true) hpend₁ hc (.inl rfl) hrun) rfl, hother⟩

theorem checkEach (u : Upheld allowed b I) (h : I owed w) (hnodup : ts.Nodup)
    (hpend : ∀ s ∈ ts, (w.trigger s).state = .pending)
    (hrun : (checkEach fuel ts).runFrom w = (.ok (), w')) : I owed w' := by
  induction ts generalizing w with
  | nil =>
    cases hrun
    exact h
  | cons t rest ih =>
    obtain ⟨hnot, hrest⟩ := List.nodup_cons.mp hnodup
    rw [runFrom_checkEach_cons] at hrun
    rcases hcheck : (World.check fuel t).runFrom w with ⟨s | state, w₁⟩
    · rw [hcheck] at hrun
      cases hrun
    · rw [hcheck] at hrun
      obtain ⟨h₁, hother⟩ := u.check h (hpend t List.mem_cons_self) hcheck
      refine ih h₁ hrest (fun s hs => ?_) hrun
      -- the others of the batch still wait
      have hs' := hpend s (List.mem_cons_of_mem t hs)
      rw [hother s (fun e => hnot (e ▸ hs)) (created_of_pending hs')]
      exact hs'

theorem checkBatches (u : Upheld allowed b I) {rounds : Nat} (hr : Roster (.pass [] ts) w)
    (hpend : ∀ s ∈ ts, (w.trigger s).state = .pending) (h : I owed w)
    (hrun : (checkBatches fuel rounds ts).runFrom w = (.ok (), w')) : I owed w' := by
  induction rounds generalizing ts w with
  | zero =>
    cases ts with
    | nil =>
      cases hrun
      exact h
    | cons t rest => cases hrun
  | succ rounds ih =>
    cases ts with
    | nil =>
      cases hrun
      exact h
    | cons t rest =>
      obtain ⟨w₁, heach, hrun⟩ := checkBatches_ok hrun
      have h₁ := u.checkEach h (List.nodup_append.mp hr.nodup).1 hpend heach
      obtain ⟨hend, hlisted, hr₁⟩ := hr.batch heach
      rw [hend] at hrun
      exact ih hr₁ hlisted (u.still h₁ rfl rfl rfl) hrun

theorem checkAll (u : Upheld allowed b I) (hr : Roster .rest w) (h : I owed w)
    (hrun : (checkAll fuel).runFrom w = (.ok (), w')) : I owed w' :=
  u.checkBatches hr.openPass hr.listed (u.still h rfl rfl rfl) hrun

/-! ## Time -/

/-- Triggers that time out together are owed together. -/
theorem timeOutEach (u : Upheld allowed b I) (h : I owed w) (hnodup : ts.Nodup)
    (hpend : ∀ s ∈ ts, (w.trigger s).state = .pending ∧ (w.trigger s).captured.isSome)
    (hrun : (timeOutEach fuel ts).runFrom w = (.ok (), w')) :
    I (update owed .timedOut (owed .timedOut + ts.length)) w' := by
  induction ts generalizing w owed with
  | nil =>
    cases hrun
    rw [List.length_nil, Nat.add_zero, Function.update_eq_self]
    exact h
  | cons t rest ih =>
    obtain ⟨hnot, hrest⟩ := List.nodup_cons.mp hnodup
    obtain ⟨hp, hsome⟩ := hpend t List.mem_cons_self
    unfold World.timeOutEach at hrun
    obtain ⟨_, w₁, hout, hrun⟩ := Exec.bind_ok hrun
    obtain ⟨-, hnone⟩ | ⟨c, -, hc, hsettle⟩ := timeOut_apart hout
    · rw [hnone hp] at hsome
      cases hsome
    · have h₁ := u.settle h hp hc (.inr rfl) hsettle
      obtain ⟨-, hother⟩ := trigger_settle (created_of_pending hp) hsettle
      have hkeep : ∀ s ∈ rest, (w₁.trigger s).state = .pending ∧
          (w₁.trigger s).captured.isSome := by
        intro s hs
        have hs' := hpend s (List.mem_cons_of_mem t hs)
        rw [hother s (fun e => hnot (e ▸ hs)) (created_of_pending hs'.1)]
        exact hs'
      have h₂ := ih h₁ hrest hkeep hrun
      rwa [update_owed] at h₂

theorem expire (u : Upheld allowed b I) (hr : Roster .rest w) (h : I owed w) {now : Instant}
    (hrun : (expire fuel now).runFrom w = (.ok (), w')) : I owed w' := by
  obtain ⟨w₁, heach, rfl⟩ := expire_apart hrun
  have hqueue : (w.pending ++ w.fresh).Nodup := hr.nodup
  have hnodup : (w.pending.filter (w.isExpired now)).Nodup :=
    (List.nodup_append.mp hqueue).1.filter _
  have hpend : ∀ s ∈ w.pending.filter (w.isExpired now),
      (w.trigger s).state = .pending ∧ (w.trigger s).captured.isSome := by
    intro s hs
    have hp := hr.listed s (List.mem_append_left _ (List.mem_of_mem_filter hs))
    exact ⟨hp, (hr.holds s).isSome_iff.mp hp⟩
  have h₀ : I owed { w with pending := w.pending.filter fun t => !w.isExpired now t } :=
    u.still h rfl rfl rfl
  exact u.still (u.pay (u.timeOutEach h₀ hnodup hpend heach) rfl) rfl rfl rfl

theorem advance (u : Upheld allowed b I) (hr : Roster .rest w) (h : I owed w) {time : Instant}
    (hrun : (advance fuel time).runFrom w = (.ok (), w')) : I owed w' := by
  rcases advance_ok hrun with rfl | ⟨w₁, hpass, hexpire⟩
  · exact h
  · have hr₀ : Roster .rest { w with now := time } :=
      hr.same ⟨fun t => ⟨_, rfl⟩, rfl, rfl, rfl, rfl, rfl⟩
    have h₁ : I owed w₁ := u.checkAll hr₀ (u.still h rfl rfl rfl) hpass
    have hturns := perform_turns .checkAll fuel { w with now := time }
    unfold Exec.leaves at hturns
    rw [HostOp.perform, hpass] at hturns
    exact u.expire (hturns.roster hr₀) h₁ hexpire

/-! ## Sessions -/

theorem foldl_cancel (u : Upheld allowed b I) (h : I owed w) (hnodup : ts.Nodup)
    (hpend : ∀ s ∈ ts, (w.trigger s).state = .pending) (hb : ∀ s ∈ ts, b.Created s) :
    I (update owed .cancelled (owed .cancelled + ts.length))
      (ts.foldl (fun w t => w.cancel t) w) := by
  induction ts generalizing w owed with
  | nil =>
    rw [List.length_nil, Nat.add_zero, Function.update_eq_self]
    exact h
  | cons t rest ih =>
    obtain ⟨hnot, hrest⟩ := List.nodup_cons.mp hnodup
    have hp := hpend t List.mem_cons_self
    rw [List.foldl_cons, cancel_of_pending hp]
    have hkeep : ∀ s ∈ rest, ((w.leave t .cancelled).trigger s).state = .pending := by
      intro s hs
      have hne : s ≠ t := fun e => hnot (e ▸ hs)
      rw [World.leave, trigger_modifyTrigger_of_ne hne]
      exact hpend s (List.mem_cons_of_mem t hs)
    have h₁ := ih (u.cancel h hp (hb t List.mem_cons_self)) hrest hkeep
      fun s hs => hb s (List.mem_cons_of_mem t hs)
    rwa [update_owed] at h₁

/-- Triggers that are cancelled together are counted together. -/
theorem cancelEach (u : Upheld allowed b I) (h : I owed w) (hnodup : ts.Nodup)
    (hpend : ∀ s ∈ ts, (w.trigger s).state = .pending) (hb : ∀ s ∈ ts, b.Created s) :
    I owed (w.cancelEach ts) :=
  u.pay (u.foldl_cancel h hnodup hpend hb) rfl

theorem closeSession (u : Upheld allowed w I) (hr : Roster .rest w) (h : I owed w)
    (s : SessionId) : I owed (w.closeSession s) := by
  unfold World.closeSession
  split
  · have hwaits : ∀ t ∈ (w.pending ++ w.fresh).filter fun t => (w.trigger t).session == some s,
        (w.trigger t).state = .pending := fun t ht => hr.listed t (List.mem_of_mem_filter ht)
    have h₀ : I owed { w with openSessions := w.openSessions.filter (· != s) } :=
      u.still h rfl rfl rfl
    exact u.still (u.cancelEach h₀ (List.Nodup.filter _ hr.nodup) hwaits
      fun t ht => created_of_pending (hwaits t ht)) rfl rfl rfl
  · exact h

/-! ## Operations -/

/-- An operation that returns keeps the property, and owes nothing. -/
theorem perform (u : Upheld allowed w I) (hr : Roster .rest w) (h : I (fun _ => 0) w)
    {op : HostOp} (hop : op.RunsOnly allowed)
    (hrun : (op.perform fuel).runFrom w = (.ok (), w')) : I (fun _ => 0) w' := by
  cases op with
  | newFrame size session | newSession =>
    cases hrun
    exact u.still h rfl rfl rfl
  | bind f slot v =>
    obtain ⟨heap, slots, rfl⟩ := local_leaves (.writeSlot slot v) hrun
    exact u.still h rfl rfl rfl
  | run script f =>
    rw [HostOp.perform, Exec.runFrom_onFault, Exec.runFrom_bind] at hrun
    rcases hx : (script.run fuel f).runFrom w with ⟨(e | a | _) | out, w₁⟩
    all_goals rw [hx] at hrun
    · cases hrun
      exact u.run h hop hx rfl
    · cases hrun
    · cases hrun
    · cases hrun
      exact u.run h hop hx rfl
  | checkAll => exact u.checkAll hr h hrun
  | expire now => exact u.expire hr h hrun
  | advance time => exact u.advance hr h hrun
  | closeSession s =>
    cases hrun
    exact u.closeSession hr h s
  | cancelAll =>
    cases hrun
    have h₀ : I _ { w with pending := [], fresh := [] } := u.still h rfl rfl rfl
    exact u.cancelEach h₀ hr.nodup hr.listed fun t ht => created_of_pending (hr.listed t ht)

end Upheld

end World

end Vigil
