import Vigil.Proofs.Trigger.Limit
import Mathlib.Data.List.Forall2

/-!
# Vigil.Proofs.Trigger.Overrun — a script that overruns every limit

The script `crowd n` registers one trigger that fires in the next pass, and
then others that never do, until the lists are full. The trigger that fires
registers `n` again. These fit, since those already waiting are in the batch
and do not count.

Executions of such scripts are described by what they queue (`Queues`), one
rule for each form of statement involved.
-/

namespace Vigil.World

variable {α β : Type} {n : Nat} {cs cs' : List Captured} {w w' : World} {c : Captured}

/-! ## What an execution queues -/

/-- There is one frame, without slots and of no session. -/
def Alone (w : World) : Prop := ∃ next, w.frames = #[⟨#[], none, next, none⟩]

/-- A trigger waits with what it holds. -/
structure Waits (w : World) (t : TriggerRef) (c : Captured) : Prop where
  state : (w.trigger t).state = .pending
  captured : (w.trigger t).captured = some c
  isReturn : (w.trigger t).isReturn = false

/-- Triggers were added for all of `cs`. -/
structure Queued (cs : List Captured) (w w' : World) : Prop where
  alone : Alone w'
  limits : w'.limits = w.limits
  pending : w'.pending = w.pending
  kept : ∀ t, w.Created t → w'.Created t ∧ w'.trigger t = w.trigger t
  fresh : ∃ new, w'.fresh = w.fresh ++ new ∧ List.Forall₂ (Waits w') new cs

theorem Waits.congr {t : TriggerRef} (h : Waits w t c) (heq : w'.trigger t = w.trigger t) :
    Waits w' t c := by
  constructor
  all_goals rw [heq]
  · exact h.state
  · exact h.captured
  · exact h.isReturn

theorem Queued.nil (halone : Alone w') (hlimits : w'.limits = w.limits)
    (hpending : w'.pending = w.pending) (htriggers : w'.triggers = w.triggers)
    (hfresh : w'.fresh = w.fresh) : Queued [] w w' where
  alone := halone
  limits := hlimits
  pending := hpending
  kept t ht := by
    unfold Created trigger at *
    rw [htriggers]
    exact ⟨ht, rfl⟩
  fresh := ⟨[], by rw [hfresh, List.append_nil], .nil⟩

theorem Queued.trans {w₁ w₂ w₃ : World} (h : Queued cs w₁ w₂) (h' : Queued cs' w₂ w₃) :
    Queued (cs ++ cs') w₁ w₃ where
  alone := h'.alone
  limits := h'.limits.trans h.limits
  pending := h'.pending.trans h.pending
  kept t ht := by
    obtain ⟨hcreated, heq⟩ := h.kept t ht
    obtain ⟨hcreated', heq'⟩ := h'.kept t hcreated
    exact ⟨hcreated', heq'.trans heq⟩
  fresh := by
    obtain ⟨new, hfresh, hwaits⟩ := h.fresh
    obtain ⟨new', hfresh', hwaits'⟩ := h'.fresh
    refine ⟨new ++ new', by rw [hfresh', hfresh, List.append_assoc], ?_⟩
    have hstill : List.Forall₂ (Waits w₃) new cs :=
      hwaits.imp fun t c hw => hw.congr (h'.kept t (created_of_pending hw.state)).2
    exact List.rel_append hstill hwaits'

theorem Queued.pendingCount_eq (h : Queued cs w w') :
    w'.pendingCount = w.pendingCount + cs.length := by
  obtain ⟨new, hfresh, hwaits⟩ := h.fresh
  unfold pendingCount
  rw [h.pending, hfresh, List.length_append, hwaits.length_eq, Nat.add_assoc]

/-- A `when` queues its trigger where there is room. -/
theorem Queued.install {span : Span} (halone : Alone w) (hf : c.frame = ⟨0⟩)
    (hn : w.limits.maxPending = some n) (hroom : w.pendingCount < n) :
    Queued [c] w (w.install c none false span) := by
  have hin : w.letsIn c = true := by
    obtain ⟨_, hframes⟩ := halone
    unfold letsIn admits
    rw [hn, hf]
    simp [frame, hframes, hroom]
  have htriggers : (w.install c none false span).triggers =
      w.triggers.push (w.installed c none false span) := by rw [install_eq]
  have hnew := trigger_push_self htriggers
  refine ⟨?_, ?_, ?_, fun t ht => ?_, [w.nextTrigger], by rw [install_eq, hin]; rfl, ?_⟩
  · rw [install_eq]
    exact halone
  · rw [install_eq]
  · rw [install_eq]
  · exact ⟨created_push htriggers ht, trigger_push_of_ne htriggers (ne_nextTrigger ht)⟩
  · refine .cons ⟨?_, ?_, ?_⟩ .nil
    all_goals
      rw [hnew]
      simp [installed, hin]

/-- The computation answers `a` and queues triggers for `cs`, where there is
room for all of them. -/
def Queues (n : Nat) (cs : List Captured) (x : Exec α) (a : α) : Prop :=
  ∀ w, Alone w → w.limits.maxPending = some n → w.pendingCount + cs.length ≤ n →
    ∃ w', x.runFrom w = (.ok a, w') ∧ Queued cs w w'

namespace Queues

theorem pure (a : α) : Queues n [] (pure a) a :=
  fun w halone _ _ => ⟨w, rfl, .nil halone rfl rfl rfl rfl⟩

theorem bind {x : Exec α} {k : α → Exec β} {a : α} {b : β} (hx : Queues n cs x a)
    (hk : Queues n cs' (k a) b) : Queues n (cs ++ cs') (x >>= k) b := by
  intro w halone hn hroom
  rw [List.length_append] at hroom
  obtain ⟨w₁, hrun, hq⟩ := hx w halone hn (by omega)
  have hcount := hq.pendingCount_eq
  obtain ⟨w₂, hrun', hq'⟩ := hk w₁ hq.alone (by rw [hq.limits]; exact hn) (by omega)
  exact ⟨w₂, by rw [Exec.runFrom_bind, hrun]; exact hrun', hq.trans hq'⟩

/-- Something that queues nothing comes first. -/
theorem after {x : Exec α} {k : α → Exec β} {a : α} {b : β} (hx : Queues n [] x a)
    (hk : Queues n cs (k a) b) : Queues n cs (x >>= k) b := bind hx hk

theorem visit (i : StmtInfo) : Queues n [] (Exec.visit i) () :=
  fun _ halone _ _ => ⟨_, rfl, .nil halone rfl rfl rfl rfl⟩

theorem setNext (i : StmtId) : Queues n [] (Exec.setNext ⟨0⟩ i) () := by
  intro w halone _ _
  refine ⟨_, rfl, .nil ?_ rfl rfl rfl rfl⟩
  obtain ⟨next, hframes⟩ := halone
  exact ⟨some i, by simp [modifyFrame, hframes]⟩

theorem hasDelayed : Queues n [] (Exec.hasDelayed ⟨0⟩) false := by
  intro w halone _ _
  refine ⟨w, ?_, .nil halone rfl rfl rfl rfl⟩
  obtain ⟨next, hframes⟩ := halone
  simp [frame, hframes]

theorem execWhen (fuel : Nat) (i : StmtInfo) (test : Expr) (body : Stmt) :
    Queues n [⟨test, body, none, ⟨0⟩⟩]
      (Stmt.exec fuel ⟨0⟩ (.when i test body none none false)) .next := by
  intro w halone hn hroom
  let w₁ : World := { w with journal := .start i.id w.now :: w.journal }
  have hvisit : Queued [] w w₁ := .nil halone rfl rfl rfl rfl
  have hinstall : Queued [⟨test, body, none, ⟨0⟩⟩] w₁ (w₁.install _ none false i.span) :=
    .install halone rfl hn hroom
  rw [Stmt.exec]
  exact ⟨_, rfl, hvisit.trans hinstall⟩

theorem execList_cons {fuel : Nat} {s : Stmt} {rest : List Stmt}
    (hs : Queues n cs (s.exec fuel ⟨0⟩) .next)
    (hrest : Queues n cs' (Stmt.execList fuel ⟨0⟩ rest) .next) :
    Queues n (cs ++ cs') (Stmt.execList fuel ⟨0⟩ (s :: rest)) .next := by
  rw [Stmt.execList]
  exact .after (.setNext s.id) (.bind hs (.after .hasDelayed hrest))

end Queues

/-! ## The script -/

/-- Waits for what never holds. -/
def never : Captured := ⟨.const (.bool false) ⟨.bool, .unknown⟩, .null ⟨0, .unknown⟩, none, ⟨0⟩⟩

/-- `when (F) ;` -/
def waiting : Stmt := .when ⟨1, .unknown⟩ never.cond never.body none none false

/-- Waits for what holds already, and then registers `n` triggers. -/
def crier (n : Nat) : Captured :=
  ⟨.const (.bool true) ⟨.bool, .unknown⟩, .list ⟨2, .unknown⟩ (List.replicate n waiting), none, ⟨0⟩⟩

/-- Registers a trigger that registers `n` others, and `n - 1` that only wait. -/
def crowd (n : Nat) : Script where
  name := "crowd"
  kind := .toplevel
  file? := none
  body := .list ⟨4, .unknown⟩ (.when ⟨3, .unknown⟩ (crier n).cond (crier n).body none none false ::
    List.replicate (n - 1) waiting)
  yield := none
  diagnostics := []
  frameSize := 0
  names := []
  placed := []
  nextStmt := 5
  breach? := none

theorem waiting_queues (fuel k : Nat) :
    Queues n (List.replicate k never) (Stmt.execList fuel ⟨0⟩ (List.replicate k waiting)) .next := by
  induction k with
  | zero =>
    unfold Stmt.execList
    exact .pure _
  | succ k ih => exact .execList_cons (.execWhen fuel _ _ _) ih

theorem crier_queues (fuel m : Nat) :
    Queues n (List.replicate m never) ((crier m).body.exec fuel ⟨0⟩) .next := by
  rw [crier, Stmt.exec]
  exact .after (.visit _) (waiting_queues fuel m)

theorem crowd_queues (fuel m : Nat) :
    Queues n (crier m :: List.replicate (m - 1) never) ((crowd m).run fuel ⟨0⟩) .next := by
  rw [Script.run, crowd, Stmt.exec]
  exact .after (.visit _) (.execList_cons (.execWhen fuel _ _ _) (waiting_queues fuel (m - 1)))

/-! ## The pass -/

section Pass

variable (fuel : Nat) {t : TriggerRef} {ts : List TriggerRef}

/-- A look at a trigger that never fires leaves a note. -/
theorem check_never (h : Waits w t never) :
    (check fuel t).runFrom w =
      (.ok .pending, { w with journal := .look t false :: w.journal }) := by
  unfold check
  rw [Exec.runFrom_bind, Exec.runFrom_get]
  dsimp only
  rw [h.state, h.captured]
  refine Prod.ext (congrArg Except.ok ?_) rfl
  exact h.state

theorem checkEach_never (hts : ∀ t ∈ ts, Waits w t never) :
    ∃ journal, (checkEach fuel ts).runFrom w = (.ok (), { w with journal := journal }) := by
  induction ts generalizing w with
  | nil => exact ⟨w.journal, rfl⟩
  | cons t rest ih =>
    obtain ⟨journal, hrest⟩ := ih (w := { w with journal := .look t false :: w.journal })
      fun u hu => (hts u (List.mem_cons_of_mem t hu)).congr rfl
    refine ⟨journal, ?_⟩
    unfold checkEach
    rw [Exec.runFrom_bind, check_never fuel (hts t List.mem_cons_self)]
    exact hrest

theorem waits_never {new : List TriggerRef} {k : Nat}
    (h : List.Forall₂ (Waits w) new (List.replicate k never)) (ht : t ∈ new) : Waits w t never := by
  induction new generalizing k with
  | nil => cases ht
  | cons u new ih =>
    obtain ⟨c, cs, hc, hrest, heq⟩ := List.forall₂_cons_left_iff.mp h
    cases k with
    | zero => cases heq
    | succ k =>
      cases heq
      rcases List.mem_cons.mp ht with rfl | ht
      · exact hc
      · exact ih hrest ht

/-- A batch is looked at, and what is left of it is listed again. -/
theorem checkBatches_of_checkEach {rounds : Nat} {w₁ : World} (hr : Roster (.pass [] (t :: ts)) w)
    (heach : (checkEach fuel (t :: ts)).runFrom w = (.ok (), w₁)) :
    (checkBatches fuel (rounds + 1) (t :: ts)).runFrom w =
      (checkBatches fuel rounds w₁.fresh).runFrom
        { keepWaiting (t :: ts) w₁ with fresh := [] } := by
  rw [runFrom_checkBatches_succ fuel rounds (List.cons_ne_nil t ts), heach]
  dsimp only
  rw [(hr.batch heach).1]
  rfl

/-- A batch of triggers that never fire is listed again. -/
theorem checkBatches_never (rounds : Nat) (hr : Roster (.pass [] ts) w) (hempty : w.fresh = [])
    (hts : ∀ t ∈ ts, Waits w t never) :
    ∃ w', (checkBatches fuel (rounds + 1) ts).runFrom w = (.ok (), w') ∧
      w'.pendingCount = w.pending.length + ts.length := by
  cases ts with
  | nil => exact ⟨w, rfl, by rw [pendingCount, hempty]⟩
  | cons t rest =>
    obtain ⟨journal, hrun⟩ := checkEach_never fuel hts
    have hkeep : (t :: rest).filter (fun u => !(w.trigger u).state.isTerminal) = t :: rest :=
      List.filter_eq_self.mpr fun u hu => waits_iff.mpr (hts u hu).state
    refine ⟨{ keepWaiting (t :: rest) { w with journal := journal } with fresh := [] }, ?_, ?_⟩
    · rw [checkBatches_of_checkEach fuel hr hrun]
      dsimp only
      rw [hempty]
      cases rounds <;> rfl
    · change (w.pending ++ (t :: rest).filter fun u => !(w.trigger u).state.isTerminal).length = _
      rw [hkeep, List.length_append]

/-- The trigger whose condition holds fires, and its body queues what it does. -/
theorem check_crier {m : Nat} (halone : Alone w) (hn : w.limits.maxPending = some n)
    (hroom : w.pendingCount + m ≤ n) (h : Waits w t (crier m)) :
    ∃ w', (check fuel t).runFrom w = (.ok .fired, w') ∧
      Queued (List.replicate m never) (w.leave t .fired) w' := by
  let w₁ : World := { w with journal := .look t true :: w.journal }
  let w₂ := w₁.settled t .fired (crier m).body
  obtain ⟨w', hrun, hq⟩ := crier_queues fuel m w₂ halone hn (by
    rw [List.length_replicate]
    exact hroom)
  have hself : w₂.trigger t = { w.trigger t with captured := none, state := .fired } :=
    trigger_modifyTrigger_self (created_of_pending h.state) _
  have hcreated : w₂.Created t := created_modifyTrigger.mpr (created_of_pending h.state)
  have hsettle : (settle fuel t .fired (crier m)).runFrom w₁ = (.ok (), w') := by
    rw [runFrom_settle]
    change (runBody fuel t ⟨0⟩ (crier m).body).runFrom w₂ = _
    rw [runFrom_runBody, hrun]
    dsimp only
    rw [hself, h.isReturn]
    rfl
  refine ⟨w', ?_, ⟨hq.alone, hq.limits, hq.pending, hq.kept, hq.fresh⟩⟩
  unfold check
  rw [Exec.runFrom_bind, Exec.runFrom_get]
  dsimp only
  rw [h.state, h.captured]
  dsimp only
  rw [Exec.runFrom_bind, show (holds (crier m)).runFrom w = (.ok true, w) from rfl]
  dsimp only
  rw [Exec.runFrom_bind, Exec.runFrom_note]
  dsimp only
  rw [if_pos rfl, Exec.runFrom_bind, hsettle]
  refine Prod.ext (congrArg Except.ok ?_) rfl
  rw [(hq.kept t hcreated).2, hself]

/-- The first trigger fires and its body fills the lists; the others still
wait. -/
theorem checkEach_crier (halone : Alone w) (hn : w.limits.maxPending = some n)
    (hpending : w.pending = []) (hfresh : w.fresh = []) (ht : Waits w t (crier n))
    (hts : ∀ u ∈ ts, Waits w u never) :
    ∃ w', (checkEach fuel (t :: ts)).runFrom w = (.ok (), w') ∧
      (keepWaiting (t :: ts) w').pending = ts ∧ w'.fresh.length = n ∧
      ∀ u ∈ w'.fresh, Waits w' u never := by
  have hcreated := created_of_pending ht.state
  obtain ⟨w₁, hcheck, hq⟩ := check_crier fuel halone hn
    (by rw [pendingCount, hpending, hfresh]; exact Nat.le_of_eq (Nat.zero_add n)) ht
  have hfired : (w₁.trigger t).state = .fired := by
    rw [(hq.kept t (created_modifyTrigger.mpr hcreated)).2, leave,
      trigger_modifyTrigger_self hcreated]
  have hts₁ : ∀ u ∈ ts, Waits w₁ u never := by
    intro u hu
    have hwait := hts u hu
    -- it waits for something else, so it is not the one that fired
    have hne : u ≠ t := by
      rintro rfl
      have hsame := hwait.captured.symm.trans ht.captured
      cases hsame
    have hkept := (hq.kept u (created_modifyTrigger.mpr (created_of_pending hwait.state))).2
    exact hwait.congr (hkept.trans (trigger_modifyTrigger_of_ne hne _))
  obtain ⟨new, hnew, hwaits⟩ := hq.fresh
  rw [show (w.leave t .fired).fresh = [] from hfresh, List.nil_append] at hnew
  let w₂ : World := w₁.modifyStats fun st => { st with fired := st.fired + 1 }
  obtain ⟨journal, hrest⟩ := checkEach_never (w := w₂) fuel fun u hu => (hts₁ u hu).congr rfl
  refine ⟨{ w₂ with journal := journal }, ?_, ?_, ?_, ?_⟩
  · unfold checkEach
    rw [Exec.runFrom_bind, hcheck]
    exact hrest
  · change w₁.pending ++ (t :: ts).filter (fun u => !(w₁.trigger u).state.isTerminal) = ts
    rw [hq.pending.trans hpending, List.nil_append, List.filter_cons_of_neg, List.filter_eq_self]
    · exact fun u hu => waits_iff.mpr (hts₁ u hu).state
    · rw [hfired]
      exact Bool.false_ne_true
  · change w₁.fresh.length = n
    rw [hnew, hwaits.length_eq, List.length_replicate]
  · intro u hu
    change u ∈ w₁.fresh at hu
    rw [hnew] at hu
    exact (waits_never hwaits hu).congr rfl

/-- Those that were waiting and those registered in their place all wait after
the pass. -/
theorem checkAll_overruns (hr : Roster .rest w) (halone : Alone w)
    (hn : w.limits.maxPending = some n) (hpending : w.pending = []) (hfresh : w.fresh = t :: ts)
    (ht : Waits w t (crier n)) (hts : ∀ u ∈ ts, Waits w u never) :
    ∃ w', (checkAll 2).runFrom w = (.ok (), w') ∧ w'.pendingCount = ts.length + n := by
  let w₀ : World := { w with pending := [], fresh := [] }
  have hr₀ : Roster (.pass [] (t :: ts)) w₀ := by
    have hbatch := hr.openPass
    rwa [hpending, hfresh] at hbatch
  obtain ⟨w₁, heach, hkept, hlength, hnew⟩ :=
    checkEach_crier (w := w₀) 2 halone hn rfl rfl (ht.congr rfl) fun u hu => (hts u hu).congr rfl
  obtain ⟨w', hrun, hcount⟩ := checkBatches_never 2 0 (hr₀.batch heach).2.2 rfl
    fun u hu => (hnew u hu).congr rfl
  refine ⟨w', ?_, by rw [hcount, ← hlength]; exact congrArg (·.length + _) hkept⟩
  unfold checkAll
  rw [Exec.runFrom_bind, Exec.runFrom_get]
  dsimp only
  rw [hpending, hfresh]
  exact (checkBatches_of_checkEach 2 hr₀ heach).trans hrun

end Pass

/-! ## Every limit above one -/

theorem exists_overrun (hn : 2 ≤ n) : ∃ w, Limited n 1 w ∧ w.pendingCount = n + (n - 1) := by
  let w₀ : World := .start default ⟨none, some n⟩
  let w₁ : World := (w₀.addFrame 0 none).2
  have hlimited₀ : Limited n 0 w₀ := .start default _ rfl
  have hlimited₁ : Limited n 0 w₁ := hlimited₀.within (.newFrame 0 none) 0 rfl rfl
  obtain ⟨w₂, hrun, hq⟩ := crowd_queues (n := n) 0 n w₁ ⟨none, rfl⟩ rfl (by
    rw [List.length_cons, List.length_replicate]
    change 0 + (n - 1 + 1) ≤ n
    omega)
  have hlimited₂ : Limited n 0 w₂ := by
    refine hlimited₁.within (.run (crowd n) ⟨0⟩) 0 rfl ?_
    unfold HostOp.perform
    rw [Exec.runFrom_onFault, Exec.runFrom_bind, hrun]
    rfl
  have hcount₂ : w₂.pendingCount = 0 + (n - 1 + 1) := by
    rw [hq.pendingCount_eq, List.length_cons, List.length_replicate]
    rfl
  obtain ⟨new, hnew, hwaits⟩ := hq.fresh
  obtain ⟨t, ts, ht, hts, rfl⟩ := List.forall₂_cons_right_iff.mp hwaits
  obtain ⟨w₃, hpass, hcount₃⟩ := checkAll_overruns hlimited₂.reachable.ledger.toRoster hq.alone
    hlimited₂.maxPending hq.pending hnew ht fun u hu => waits_never hts hu
  rw [hts.length_eq, List.length_replicate] at hcount₃
  refine ⟨w₃, ?_, by omega⟩
  have hlimited₃ := hlimited₂.step .checkAll 2 hpass
  rwa [if_pos ⟨rfl, by omega⟩] at hlimited₃

/-- The number of triggers that wait stays within the limit but for passes:
each of those that overrun it adds less than the limit again. So only the
limits 0 and 1 always hold. -/
theorem pending_limit_up_to_overruns (n : Nat) :
    (∀ overruns w, Limited n overruns w → w.pendingCount ≤ n + overruns * (n - 1)) ∧
      ((∀ overruns w, Limited n overruns w → w.pendingCount ≤ n) ↔ n ≤ 1) := by
  refine ⟨fun _ _ h => h.pendingCount_le, ?_, ?_⟩
  · intro hall
    by_contra hlt
    obtain ⟨w, hlimited, hcount⟩ := exists_overrun (n := n) (by omega)
    have hle := hall 1 w hlimited
    omega
  · intro hsmall overruns w h
    have hle := h.pendingCount_le
    rwa [show n - 1 = 0 by omega, Nat.mul_zero, Nat.add_zero] at hle

/-- One trigger fires and registers two; another waits beside it. -/
def twoForOne : Doc.Unit where
  name := "two-for-one"
  kind := .toplevel
  locals := []
  body :=
    let wait : Doc.Stmt :=
      .when (.const (.bool false)) .null none false
    .list [.when (.const (.bool true)) (.list [wait, wait]) none false,
      wait]

/-- Of two triggers that may wait, and do, one fires and registers two. -/
theorem pending_limit_overrun_by_body :
    ∃ (script : Script) (w w' : World), Script.load twoForOne 0 = .ok script ∧
      Limited 2 0 w ∧ w.pendingCount = 2 ∧
      (HostOp.checkAll.perform 2).runFrom w = (.ok (), w') ∧
      w'.limits.maxPending = some 2 ∧ w'.pendingCount = 3 ∧ w'.stats.refused = 0 := by
  let script := Script.build twoForOne 0
  have hload : script.hasErrors = false := by decide +kernel
  let w₀ : World := .start default ⟨none, some 2⟩
  let w₁ := ((HostOp.newFrame 0 none).perform 1).leaves w₀
  let w₂ := ((HostOp.run script ⟨0⟩).perform 1).leaves w₁
  let w₃ := (HostOp.checkAll.perform 2).leaves w₂
  have hstart : Limited 2 0 w₀ := .start default _ rfl
  have hframe : Limited 2 0 w₁ := hstart.within (.newFrame 0 none) 1 rfl rfl
  have hrun : Limited 2 0 w₂ :=
    hframe.within (.run script ⟨0⟩) 1 rfl (Exec.runFrom_of_isOk (by decide +kernel))
  have hpass : (HostOp.checkAll.perform 2).runFrom w₂ = (.ok (), w₃) :=
    Exec.runFrom_of_isOk (by decide +kernel)
  exact ⟨script, w₂, w₃, Script.load_eq_ok_iff.mpr ⟨rfl, hload⟩, hrun, by decide +kernel, hpass,
    by decide +kernel, by decide +kernel, by decide +kernel⟩

end Vigil.World
