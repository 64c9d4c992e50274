import Vigil.Proofs.Trigger.LifeCycle

/-!
# Vigil.Proofs.Trigger.Limit — how many triggers wait

An engine may be told how many triggers can wait at a time. Registration
compares this limit with the two lists, so an execution never exceeds it, nor
does an expiry or the end of a session. A pass takes what waits off the lists
before bodies run, and those of its batch that still wait come back whatever
was registered meanwhile. It can thus exceed the limit, but by bodies only,
and each body that ran took one trigger away.

* `RunsUnder` — what execution does to the lists under a limit.
* `checkAll_pendingCount` — a pass adds less than the limit.
* `Limited` — histories of an engine with a limit, with the number of passes
  that overran it.
-/

namespace Vigil

namespace World

open Relation (ReflTransGen)

variable {n : Nat} {w w' : World} {t : TriggerRef} {f : FrameRef} {fuel : Nat}

/-! ## Execution -/

/-- Bodies ran: they only register, and not beyond the limit. -/
structure RunsUnder (n : Nat) (w w' : World) : Prop where
  limits : w'.limits = w.limits
  pending : w'.pending = w.pending
  fresh : w.limits.maxPending = some n → w'.fresh = w.fresh ∨ w'.pendingCount ≤ n

namespace RunsUnder

/-- Nothing happened to the lists. -/
theorem of_eq (hlimits : w'.limits = w.limits) (hpending : w'.pending = w.pending)
    (hfresh : w'.fresh = w.fresh) : RunsUnder n w w' :=
  ⟨hlimits, hpending, fun _ => .inl hfresh⟩

theorem refl (w : World) : RunsUnder n w w := of_eq rfl rfl rfl

theorem trans {w₁ w₂ w₃ : World} (h : RunsUnder n w₁ w₂) (h' : RunsUnder n w₂ w₃) :
    RunsUnder n w₁ w₃ where
  limits := h'.limits.trans h.limits
  pending := h'.pending.trans h.pending
  fresh hn := by
    rcases h'.fresh (h.limits ▸ hn) with hsame | hle
    · rcases h.fresh hn with hsame₁ | hle₁
      · exact .inl (hsame.trans hsame₁)
      · right
        unfold pendingCount at hle₁ ⊢
        rwa [h'.pending, hsame]
    · exact .inr hle

/-- A trigger is let in only while there is room. -/
theorem install (c : Captured) (deadline : Option Instant) (isReturn : Bool) (span : Span)
    (w : World) : RunsUnder n w (w.install c deadline isReturn span) := by
  rw [install_eq]
  refine ⟨rfl, rfl, fun hn => ?_⟩
  by_cases h : w.letsIn c
  · right
    have hroom : w.pendingCount < n := by
      unfold letsIn admits at h
      rw [Bool.and_eq_true, hn] at h
      exact of_decide_eq_true h.2
    unfold pendingCount at hroom ⊢
    simp only [h, if_true, List.length_append, List.length_singleton]
    omega
  · left
    simp [h]

theorem step (h : Step f w w') : RunsUnder n w w' := by
  cases h with
  | install c deadline isReturn span hf => exact install c deadline isReturn span w
  | _ => exact of_eq rfl rfl rfl

theorem steps (h : ReflTransGen (Step f) w w') : RunsUnder n w w' := by
  induction h with
  | refl => exact refl w
  | tail _ hs ih => exact ih.trans (step hs)

theorem pendingCount_le (h : RunsUnder n w w') (hn : w.limits.maxPending = some n) :
    w'.pendingCount ≤ max w.pendingCount n := by
  rcases h.fresh hn with hsame | hle
  · unfold pendingCount
    rw [h.pending, hsame]
    omega
  · omega

end RunsUnder

/-! ## One trigger -/

section One

variable {fuel : Nat} {state : TriggerState}

theorem runBody_runsUnder {body : Stmt} (h : (runBody fuel t f body).runFrom w = (.ok (), w')) :
    RunsUnder n w w' := by
  obtain ⟨r, w₁, hx, -, hkept⟩ := runBody_apart h
  have hbody : RunsUnder n w w₁ := .steps ((Stmt.exec_moves fuel f body).steps hx)
  rcases hkept with rfl | ⟨v, rfl⟩
  · exact hbody
  · exact hbody.trans (.of_eq rfl rfl rfl)

theorem settle_runsUnder {c : Captured} (h : (settle fuel t state c).runFrom w = (.ok (), w')) :
    RunsUnder n w w' := by
  obtain ⟨-, rfl⟩ | ⟨body, -, h⟩ := settle_apart h
  · exact .of_eq rfl rfl rfl
  · have hleave : RunsUnder n w (w.settled t state body) := .of_eq rfl rfl rfl
    exact hleave.trans (runBody_runsUnder h)

theorem timeOut_runsUnder (h : (timeOut fuel t).runFrom w = (.ok (), w')) : RunsUnder n w w' := by
  rcases timeOut_apart h with ⟨rfl, -⟩ | ⟨c, -, -, hsettle⟩
  · exact .refl _
  · exact settle_runsUnder hsettle

/-- A look registers something only if the trigger fired. -/
theorem check_runsUnder (h : (check fuel t).runFrom w = (.ok state, w')) :
    RunsUnder n w w' ∧ (w'.fresh = w.fresh ∨ (w'.trigger t).state.isTerminal) := by
  obtain ⟨-, rfl | ⟨c, held, w₁, hpend, -, hholds, h⟩⟩ := check_apart h
  · exact ⟨.refl _, .inl rfl⟩
  · obtain ⟨heap, slots, rfl⟩ := holds_leaves hholds
    have hunder : RunsUnder n w ((w.withStore c.frame heap slots).looked t held) :=
      .of_eq rfl rfl rfl
    cases held
    · cases h
      exact ⟨hunder, .inl rfl⟩
    · rw [if_pos rfl] at h
      have hcreated : ((w.withStore c.frame heap slots).looked t true).Created t :=
        created_of_pending hpend
      refine ⟨hunder.trans (settle_runsUnder h), .inr ?_⟩
      rw [(trigger_settle hcreated h).1]
      rfl

end One

/-! ## Passes -/

section Passes

variable {fuel : Nat} {batch : List TriggerRef}

theorem checkEach_runsUnder : ∀ {seen ts : List TriggerRef} {w w' : World},
    Roster (.pass seen ts) w → (checkEach fuel ts).runFrom w = (.ok (), w') →
      RunsUnder n w w' ∧ (w'.fresh = w.fresh ∨ ∃ t ∈ ts, (w'.trigger t).state.isTerminal)
  | _, [], w, _, _, h => by
    cases h
    exact ⟨.refl w, .inl rfl⟩
  | seen, t :: rest, w, w', hr, h => by
    obtain ⟨state, w₁, stats, hcheck, h⟩ := checkEach_ok h
    obtain ⟨hunder₁, hfresh₁⟩ := check_runsUnder (n := n) hcheck
    have hunder₂ : RunsUnder n w { w₁ with stats := stats } := hunder₁.trans (.of_eq rfl rfl rfl)
    have hlook : Arrives .checkAll True (.pass seen (t :: rest), w) (.pass (seen ++ [t]) rest) _ :=
      hcheck ▸ check_turns seen rest
    have hr₂ := Turns.roster hr (hlook.ok.tail (.count _ w₁ stats))
    obtain ⟨hunder, hfresh⟩ := checkEach_runsUnder hr₂ h
    refine ⟨hunder₂.trans hunder, ?_⟩
    rcases hfresh with hfresh | ⟨u, hu, hfinal⟩
    · rcases hfresh₁ with hfresh₁ | hfinal
      · exact .inl (hfresh.trans hfresh₁)
      · -- the trigger stays final while the others are looked at
        right
        have hstays := (checkEach_onward hr₂ h).state t
          (hr₂.created t (List.mem_append_left _ (List.mem_append_right _ List.mem_cons_self))) hfinal
        exact ⟨t, List.mem_cons_self, by rw [hstays]; exact hfinal⟩
    · exact .inr ⟨u, List.mem_cons_of_mem t hu, hfinal⟩

/-- What a batch does to the numbers. If its bodies registered something, that
stayed within the limit beside the pending triggers, and one of the batch is
gone. -/
theorem batch_counts (hr : Roster (.pass [] batch) w) (hn : w.limits.maxPending = some n)
    (hempty : w.fresh = []) (h : (checkEach fuel batch).runFrom w = (.ok (), w')) :
    (keepWaiting batch w').pending.length ≤ w.pending.length + batch.length ∧
      (w'.fresh ≠ [] → w.pending.length + w'.fresh.length ≤ n ∧
        (keepWaiting batch w').pending.length < w.pending.length + batch.length) := by
  obtain ⟨hunder, hfresh⟩ := checkEach_runsUnder (n := n) hr h
  have hlength : (keepWaiting batch w').pending.length = w.pending.length +
      (batch.filter fun t => !(w'.trigger t).state.isTerminal).length := by
    unfold keepWaiting
    dsimp only
    rw [List.length_append, hunder.pending]
  rw [hlength]
  constructor
  · have hle := List.length_filter_le (fun t => !(w'.trigger t).state.isTerminal) batch
    omega
  · intro hne
    rw [hempty] at hfresh
    obtain ⟨t, ht, hfinal⟩ := hfresh.resolve_left hne
    constructor
    · have hle := (hunder.fresh hn).resolve_left (by rwa [hempty])
      unfold pendingCount at hle
      rwa [hunder.pending] at hle
    · -- a body registered something, so the trigger that started it is gone
      have hlt : (batch.filter fun t => !(w'.trigger t).state.isTerminal).length < batch.length :=
        List.length_filter_lt_length_iff_exists.mpr ⟨t, ht, by simp [hfinal]⟩
      omega

/-- Only the first batch can be larger than the limit: the later ones are
registrations. -/
theorem checkBatches_pendingCount :
    ∀ {rounds : Nat} {batch : List TriggerRef} {w w' : World}, Roster (.pass [] batch) w →
      w.limits.maxPending = some n → w.fresh = [] →
      (checkBatches fuel rounds batch).runFrom w = (.ok (), w') →
        w'.limits = w.limits ∧
          w'.pendingCount ≤
            max (w.pending.length + batch.length) (max batch.length n + (n - 1))
  | _, [], w, _, _, _, hempty, h => by
    unfold checkBatches at h
    cases h
    refine ⟨rfl, ?_⟩
    unfold pendingCount
    rw [hempty, List.length_nil]
    omega
  | 0, _ :: _, _, _, _, _, _, h => by cases h
  | rounds + 1, t :: rest, w, w', hr, hn, hempty, h => by
    obtain ⟨w₁, heach, h⟩ := checkBatches_ok h
    have hlimits := (checkEach_runsUnder (n := n) hr heach).1.limits
    obtain ⟨hkept, hnew⟩ := batch_counts hr hn hempty heach
    obtain ⟨hend, -, hr₁⟩ := hr.batch heach
    rw [hend] at h
    have hn₁ : w₁.limits.maxPending = some n := by rw [hlimits]; exact hn
    obtain ⟨hlimits', hcount⟩ := checkBatches_pendingCount hr₁ hn₁ rfl h
    refine ⟨hlimits'.trans hlimits, Nat.le_trans hcount ?_⟩
    dsimp only
    -- without registrations this is the last batch; with some, both bounds apply
    by_cases hnone : w₁.fresh = []
    · rw [hnone, List.length_nil]
      omega
    · obtain ⟨hroom, hless⟩ := hnew hnone
      have hpos := List.length_pos_iff.mpr hnone
      omega

/-- A pass adds less than the limit to what waited, or to the limit. -/
theorem checkAll_pendingCount (hr : Roster .rest w) (hn : w.limits.maxPending = some n)
    (h : (checkAll fuel).runFrom w = (.ok (), w')) :
    w'.limits = w.limits ∧ w'.pendingCount ≤ max w.pendingCount n + (n - 1) := by
  obtain ⟨hlimits, hcount⟩ := checkBatches_pendingCount hr.openPass hn rfl h
  refine ⟨hlimits, Nat.le_trans hcount ?_⟩
  unfold pendingCount
  rw [List.length_append, List.length_nil]
  omega

end Passes

/-! ## Time and sessions -/

theorem pendingCount_prune_le (w : World) : w.prune.pendingCount ≤ w.pendingCount := by
  unfold prune pendingCount
  exact Nat.add_le_add (List.length_filter_le _ _) (List.length_filter_le _ _)

theorem timeOutEach_runsUnder {fuel : Nat} : ∀ {ts : List TriggerRef} {w w' : World},
    (timeOutEach fuel ts).runFrom w = (.ok (), w') → RunsUnder n w w'
  | [], w, _, h => by
    cases h
    exact .refl w
  | t :: rest, w, w', h => by
    unfold timeOutEach at h
    obtain ⟨_, w₁, hx, h⟩ := Exec.bind_ok h
    exact (timeOut_runsUnder hx).trans (timeOutEach_runsUnder h)

/-- Those that time out make room, and never come back. -/
theorem expire_pendingCount {now : Instant} (hn : w.limits.maxPending = some n)
    (h : (expire fuel now).runFrom w = (.ok (), w')) :
    w'.limits = w.limits ∧ w'.pendingCount ≤ max w.pendingCount n := by
  obtain ⟨w₁, heach, rfl⟩ := expire_apart h
  have hunder := timeOutEach_runsUnder (n := n) heach
  refine ⟨hunder.limits, Nat.le_trans (pendingCount_prune_le _) ?_⟩
  have hle := List.length_filter_le (fun t => !w.isExpired now t) w.pending
  calc w₁.pendingCount
      ≤ max (({ w with pending := w.pending.filter fun t => !w.isExpired now t } :
          World).pendingCount) n := hunder.pendingCount_le hn
    _ ≤ max w.pendingCount n := by
        unfold pendingCount
        dsimp only
        omega

theorem advance_pendingCount {time : Instant} (hr : Roster .rest w) (hn : w.limits.maxPending = some n)
    (h : (advance fuel time).runFrom w = (.ok (), w')) :
    w'.limits = w.limits ∧ w'.pendingCount ≤ max w.pendingCount n + (n - 1) := by
  rcases advance_ok h with rfl | ⟨w₁, hpass, hexpire⟩
  · exact ⟨rfl, by omega⟩
  · have hr₀ : Roster .rest { w with now := time } :=
      hr.same ⟨fun t => ⟨_, rfl⟩, rfl, rfl, rfl, rfl, rfl⟩
    obtain ⟨hlimits₁, hcount₁⟩ := checkAll_pendingCount hr₀ hn hpass
    obtain ⟨hlimits, hcount⟩ := expire_pendingCount (by rw [hlimits₁]; exact hn) hexpire
    refine ⟨hlimits.trans hlimits₁, ?_⟩
    change w₁.pendingCount ≤ max w.pendingCount n + (n - 1) at hcount₁
    omega

theorem closeSession_pendingCount (s : SessionId) (w : World) :
    (w.closeSession s).limits = w.limits ∧ (w.closeSession s).pendingCount ≤ w.pendingCount := by
  unfold closeSession
  split
  · dsimp only
    obtain ⟨trs, h, -⟩ := foldl_cancel_eq { w with openSessions := w.openSessions.filter (· != s) }
      ((w.pending ++ w.fresh).filter fun t => (w.trigger t).session == some s)
    unfold cancelEach
    rw [h]
    exact ⟨rfl, pendingCount_prune_le _⟩
  · exact ⟨rfl, Nat.le_refl _⟩

theorem cancelAll_pendingCount (w : World) :
    w.cancelAll.limits = w.limits ∧ w.cancelAll.pendingCount = 0 := by
  unfold cancelAll cancelEach
  obtain ⟨trs, h, -⟩ := foldl_cancel_eq { w with pending := [], fresh := [] }
    (w.pending ++ w.fresh)
  rw [h]
  exact ⟨rfl, rfl⟩

/-! ## Histories -/

/-- What one operation of the host can add to the triggers that wait. -/
theorem perform_pendingCount {op : HostOp} (hr : Roster .rest w) (hn : w.limits.maxPending = some n)
    (h : (op.perform fuel).runFrom w = (.ok (), w')) :
    w'.limits = w.limits ∧
      w'.pendingCount ≤ max w.pendingCount n + if op.isPass then n - 1 else 0 := by
  cases op with
  | newFrame size session =>
    cases h
    exact ⟨rfl, Nat.le_max_left _ _⟩
  | bind f slot v =>
    have hunder : RunsUnder n w w' := .steps ((Exec.Moves.of_local (.writeSlot slot v)).steps h)
    exact ⟨hunder.limits, hunder.pendingCount_le hn⟩
  | run script f =>
    have hmoves := Exec.Moves.onFault
      (.bind (Stmt.exec_moves fuel f script.body) fun _ => .pure ()) fun _ => .pure ()
    have hunder : RunsUnder n w w' := .steps (hmoves.steps h)
    exact ⟨hunder.limits, hunder.pendingCount_le hn⟩
  | checkAll => exact checkAll_pendingCount hr hn h
  | expire now => exact expire_pendingCount hn h
  | advance time => exact advance_pendingCount hr hn h
  | newSession =>
    cases h
    exact ⟨rfl, Nat.le_max_left _ _⟩
  | closeSession s =>
    cases h
    obtain ⟨hlimits, hcount⟩ := closeSession_pendingCount s w
    exact ⟨hlimits, Nat.le_trans hcount (Nat.le_max_left _ _)⟩
  | cancelAll =>
    cases h
    obtain ⟨hlimits, hcount⟩ := cancelAll_pendingCount w
    exact ⟨hlimits, by rw [hcount]; exact Nat.zero_le _⟩

/-- Histories of an engine in which `n` triggers may wait, and how many passes
overran: each left more waiting than it found, and more than the limit. -/
inductive Limited (n : Nat) : Nat → World → Prop where
  | start (now : Instant) (limits : Limits) (h : limits.maxPending = some n) :
      Limited n 0 (.start now limits)
  | step {overruns : Nat} {w w' : World} (hw : Limited n overruns w) (op : HostOp) (fuel : Nat)
      (h : (op.perform fuel).runFrom w = (.ok (), w')) :
      Limited n
        (if op.isPass ∧ max w.pendingCount n < w'.pendingCount then overruns + 1 else overruns) w'

namespace Limited

variable {overruns : Nat}

/-- What is no pass is no overrun. -/
theorem within (hw : Limited n overruns w) (op : HostOp) (fuel : Nat) (hop : op.isPass = false)
    (h : (op.perform fuel).runFrom w = (.ok (), w')) : Limited n overruns w' := by
  have hstep := hw.step op fuel h
  rwa [hop, if_neg fun hover => Bool.false_ne_true hover.1] at hstep

theorem reachable (h : Limited n overruns w) : Reachable w := by
  induction h with
  | start now limits _ => exact ⟨now, limits, .refl⟩
  | step _ op fuel h ih =>
    obtain ⟨now, limits, hlater⟩ := ih
    exact ⟨now, limits, .tail hlater ⟨op, fuel, h⟩⟩

theorem maxPending (h : Limited n overruns w) : w.limits.maxPending = some n := by
  induction h with
  | start _ _ h => exact h
  | step hw op fuel h ih => rw [(perform_pendingCount hw.reachable.ledger.toRoster ih h).1, ih]

/-- Each overrun adds less than the limit, and nothing else exceeds it. -/
theorem pendingCount_le (h : Limited n overruns w) :
    w.pendingCount ≤ n + overruns * (n - 1) := by
  induction h with
  | start => exact Nat.zero_le _
  | @step overruns w w' hw op fuel h ih =>
    have hcount := (perform_pendingCount hw.reachable.ledger.toRoster hw.maxPending h).2
    split
    · rename_i hover
      rw [if_pos hover.1] at hcount
      rw [Nat.succ_mul]
      omega
    · rename_i hwithin
      -- a pass that did not overrun added nothing, and nothing else is a pass
      have hle : w'.pendingCount ≤ max w.pendingCount n := by
        by_cases hpass : op.isPass
        · exact Nat.not_lt.mp fun hlt => hwithin ⟨hpass, hlt⟩
        · rwa [if_neg hpass, Nat.add_zero] at hcount
      omega

end Limited

end World

end Vigil
