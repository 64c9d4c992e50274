import Vigil.Proofs.Exec.Simulates
import Vigil.Proofs.History
import Vigil.Proofs.Trigger.Basic

/-!
# Vigil.Proofs.Trigger.Parallel — what operations are made of

Most of what an operation does is clerical: triggers are taken up, put back,
cancelled and counted, and neither are frames looked at nor is anything more held
than before (`World.Clerical`). Besides that it evaluates conditions that are
waited for, and runs bodies and scripts.

A property of computations that goes through sequences, and that all that is
clerical has, and the code that triggers hold and that scripts run, every
operation has (`World.Scheduled.perform`). To keep a property of engines is one
(`World.Scheduled.of_preserves`). To answer the same in two engines that differ in
their frames only is another (`World.Parallel.scheduled`).
-/

namespace Vigil.World

open Exec (Keeps Simulates)

variable {g : World → World} {α : Type}

/-! ## Clerical changes -/

/-- Whether a trigger still waits for a session that was closed. -/
def isOrphan (w : World) (t : TriggerRef) : Bool :=
  (w.trigger t).session.any fun s => !(w.trigger t).state.isTerminal && !w.isOpen s

theorem cancelOrphan_eq_ite (w : World) (t : TriggerRef) :
    w.cancelOrphan t = if w.isOrphan t then
      (w.cancel t).modifyStats fun st => { st with cancelled := st.cancelled + 1 } else w := by
  unfold cancelOrphan isOrphan
  cases (w.trigger t).session with
  | none => rfl
  | some s => rfl

/-- A change of the triggers, the lists, the sessions, the counters and the
clock that does not look at frames and makes no trigger hold more. -/
structure Clerical (g : World → World) : Prop where
  blind : ∀ (w : World) (frames : Array Frame),
    g { w with frames := frames } = { g w with frames := frames }
  kept : ∀ w : World, ∃ now triggers pending fresh openSessions nextSession stats,
    g w = { w with
      now := now
      triggers := triggers
      pending := pending
      fresh := fresh
      openSessions := openSessions
      nextSession := nextSession
      stats := stats }
  held : ∀ (w : World) (t : TriggerRef) (c : Captured),
    ((g w).trigger t).captured = some c → (w.trigger t).captured = some c

namespace Clerical

variable {g' : World → World}

theorem comp (h : Clerical g) (h' : Clerical g') : Clerical fun w => g' (g w) where
  blind w frames := by rw [h.blind, h'.blind]
  kept w := by
    obtain ⟨_, _, _, _, _, _, _, hg'⟩ := h'.kept (g w)
    obtain ⟨_, _, _, _, _, _, _, hg⟩ := h.kept w
    rw [hg', hg]
    exact ⟨_, _, _, _, _, _, _, rfl⟩
  held w t c hc := h.held w t c (h'.held (g w) t c hc)

theorem id : Clerical fun w => w where
  blind _ _ := rfl
  kept _ := ⟨_, _, _, _, _, _, _, rfl⟩
  held _ _ _ h := h

/-- What is done may depend on all that is not in the frames. -/
theorem choose {r : World → α} {g : α → World → World}
    (hr : ∀ (w : World) frames, r { w with frames := frames } = r w) (hg : ∀ a, Clerical (g a)) :
    Clerical fun w => g (r w) w where
  blind w frames := by rw [hr, (hg (r w)).blind]
  kept w := (hg (r w)).kept w
  held w := (hg (r w)).held w

theorem ite {p : Prop} [Decidable p] (h : Clerical g) (h' : Clerical g') :
    Clerical fun w => if p then g w else g' w := by
  split
  · exact h
  · exact h'

/-- A trigger is changed and holds what it held, or nothing. -/
theorem modifyTrigger (t : TriggerRef) {g : Trigger → Trigger}
    (hg : ∀ tr, (g tr).captured = tr.captured ∨ (g tr).captured = none) :
    Clerical (World.modifyTrigger t g) where
  blind _ _ := rfl
  kept _ := ⟨_, _, _, _, _, _, _, rfl⟩
  held w u c hc := by
    by_cases hu : u = t
    · subst hu
      by_cases hcreated : w.Created u
      · rw [trigger_modifyTrigger_self hcreated] at hc
        rcases hg (w.trigger u) with hsame | hnone
        · rwa [hsame] at hc
        · rw [hnone] at hc
          cases hc
      · rw [trigger_of_not_created (mt created_modifyTrigger.mp hcreated)] at hc
        cases hc
    · rwa [trigger_modifyTrigger_of_ne hu] at hc

theorem leave (t : TriggerRef) (state : TriggerState) : Clerical (World.leave t state) :=
  .modifyTrigger t fun _ => .inr rfl

theorem cancel (t : TriggerRef) : Clerical (World.cancel t) :=
  .choose (r := fun w => (w.trigger t).state.isTerminal)
    (g := fun b w => if b then w else w.leave t .cancelled) (fun _ _ => rfl) fun _ =>
    .ite .id (.leave t .cancelled)

theorem modifyStats (g : TriggerStats → TriggerStats) : Clerical (World.modifyStats g) :=
  ⟨fun _ _ => rfl, fun _ => ⟨_, _, _, _, _, _, _, rfl⟩, fun _ _ _ h => h⟩

theorem foldl {g : TriggerRef → World → World} (hg : ∀ t, Clerical (g t)) (ts : List TriggerRef) :
    Clerical fun w => ts.foldl (fun w t => g t w) w := by
  induction ts with
  | nil => exact .id
  | cons t ts ih => exact .comp (hg t) ih

theorem cancelEach (ts : List TriggerRef) : Clerical (World.cancelEach ts) :=
  (Clerical.foldl .cancel ts).comp (.modifyStats _)

/-- The lists of what waits are written anew. -/
theorem setLists {p q : World → List TriggerRef}
    (hp : ∀ (w : World) frames, p { w with frames := frames } = p w)
    (hq : ∀ (w : World) frames, q { w with frames := frames } = q w) :
    Clerical fun w => { w with pending := p w, fresh := q w } where
  blind w frames := by rw [hp, hq]
  kept _ := ⟨_, _, _, _, _, _, _, rfl⟩
  held _ _ _ h := h

theorem prune : Clerical World.prune := .setLists (fun _ _ => rfl) fun _ _ => rfl

/-- A pass takes up all that waits. -/
theorem takeAll : Clerical fun w => { w with pending := [], fresh := [] } :=
  .setLists (fun _ _ => rfl) fun _ _ => rfl

/-- A batch takes up what was registered before it. -/
theorem takeFresh : Clerical fun w => { w with fresh := [] } :=
  .setLists (fun _ _ => rfl) fun _ _ => rfl

/-- An expiry takes up what is due. -/
theorem takeExpired (now : Instant) :
    Clerical fun w => { w with pending := w.pending.filter fun t => !w.isExpired now t } :=
  .setLists (fun _ _ => rfl) fun _ _ => rfl

theorem cancelOrphan (t : TriggerRef) : Clerical fun w => World.cancelOrphan w t := by
  rw [funext fun w => cancelOrphan_eq_ite w t]
  refine .choose (r := (·.isOrphan t)) (g := fun b w => if b then
    (w.cancel t).modifyStats fun st => { st with cancelled := st.cancelled + 1 } else w)
    (fun _ _ => rfl) fun _ => ?_
  exact .ite ((Clerical.cancel t).comp (.modifyStats _)) .id

theorem endBatch (batch : List TriggerRef) : Clerical (World.endBatch batch) :=
  (Clerical.foldl .cancelOrphan batch).comp (.setLists (fun _ _ => rfl) fun _ _ => rfl)

theorem newSession : Clerical fun w => w.newSession.2 :=
  ⟨fun _ _ => rfl, fun _ => ⟨_, _, _, _, _, _, _, rfl⟩, fun _ _ _ h => h⟩

theorem setNow (time : Instant) : Clerical fun w => { w with now := time } :=
  ⟨fun _ _ => rfl, fun _ => ⟨_, _, _, _, _, _, _, rfl⟩, fun _ _ _ h => h⟩

theorem closeSession (s : SessionId) : Clerical (World.closeSession s) := by
  have hclosed : ∀ opened, Clerical fun w => { w with openSessions := opened } := fun _ =>
    ⟨fun _ _ => rfl, fun _ => ⟨_, _, _, _, _, _, _, rfl⟩, fun _ _ _ h => h⟩
  refine .choose (r := fun w => (w.openSessions,
    (w.pending ++ w.fresh).filter fun t => (w.trigger t).session == some s)) (g := fun r w =>
      if r.1.contains s then
        ({ w with openSessions := r.1.filter (· != s) }.cancelEach r.2).prune
      else w) (fun _ _ => rfl) fun r => ?_
  exact .ite (((hclosed _).comp (.cancelEach r.2)).comp .prune) .id

theorem cancelAll : Clerical World.cancelAll := by
  refine .choose (r := fun w => w.pending ++ w.fresh)
    (g := fun ts w => { w with pending := [], fresh := [] }.cancelEach ts) (fun _ _ => rfl)
    fun ts => ?_
  exact Clerical.takeAll.comp (.cancelEach ts)

end Clerical

/-! ## Operations -/

/-- A property of computations that goes through what an engine does with its
triggers. Of the engine `A` is known whenever it is looked at. -/
structure Scheduled (A : World → Prop) (K : {α : Type} → Exec α → Prop) : Prop where
  pure : ∀ {α : Type} (a : α), K (pure a : Exec α)
  exhausted : K (throw .exhausted : Exec Unit)
  bind : ∀ {α β : Type} {x : Exec α} {k : α → Exec β}, K x → (∀ a, K (k a)) → K (x >>= k)
  onFault : ∀ {α : Type} {x : Exec α} {recover : Fault → Exec α}, K x →
    (∀ e, K (recover e)) → K (Exec.onFault x recover)
  /-- What comes after a look at the engine does not depend on its frames. -/
  look : ∀ {α : Type} {k : World → Exec α},
    (∀ (w : World) frames, k { w with frames := frames } = k w) → (∀ w, A w → K (k w)) →
      K (get >>= k)
  clerical : ∀ {g}, Clerical g → K (modify g)
  note : ∀ {e}, (∀ i, Entry.startOf? i e = none) → K (Exec.note e)
  cond : ∀ {w t c}, A w → (w.trigger t).captured = some c → K (c.cond.eval c.frame)
  body : ∀ {w t c state b}, A w → (w.trigger t).captured = some c →
    c.bodyFor state = some b → ∀ fuel, K (b.exec fuel c.frame)

namespace Scheduled

variable {A : World → Prop} {K : {α : Type} → Exec α → Prop} {fuel : Nat} {w : World}
  {t u : TriggerRef} {c : Captured}

theorem settle (p : Scheduled A K) (hw : A w) (hc : (w.trigger u).captured = some c)
    (state : TriggerState) : K (World.settle fuel t state c) := by
  refine p.bind (p.clerical (.leave t state)) fun _ => ?_
  cases hb : c.bodyFor state with
  | none => exact p.pure _
  | some b =>
    refine p.bind (p.note fun _ => rfl) fun _ => p.look (fun _ _ => rfl) fun _ _ => ?_
    refine p.onFault (p.bind (p.body hw hc hb fuel) fun out => ?_) fun _ => p.pure _
    split
    · exact p.clerical (.modifyTrigger t fun _ => .inl rfl)
    · exact p.pure _

theorem holds (p : Scheduled A K) (hw : A w) (hc : (w.trigger t).captured = some c) :
    K (World.holds c) :=
  p.onFault (p.bind (p.cond hw hc) fun _ => p.pure _) fun _ => p.pure _

theorem check (p : Scheduled A K) (t : TriggerRef) : K (World.check fuel t) := by
  have hstate : K (do return ((← get).trigger t).state : Exec TriggerState) :=
    p.look (fun _ _ => rfl) fun _ _ => p.pure _
  refine p.look (fun _ _ => rfl) fun w hw => ?_
  dsimp only
  split
  · rename_i c _ hc
    refine p.bind (p.holds hw hc) fun held => p.bind (p.note fun _ => rfl) fun _ => ?_
    split
    · exact p.bind (p.settle hw hc .fired) fun _ => hstate
    · exact hstate
  · exact p.pure _

theorem timeOut (p : Scheduled A K) (t : TriggerRef) : K (World.timeOut fuel t) := by
  refine p.look (fun _ _ => rfl) fun w hw => ?_
  dsimp only
  split
  · exact p.settle hw ‹_› .timedOut
  · exact p.pure _

theorem checkEach (p : Scheduled A K) (ts : List TriggerRef) : K (World.checkEach fuel ts) := by
  induction ts with
  | nil => exact p.pure _
  | cons t ts ih =>
    refine p.bind (p.check t) fun state => ?_
    dsimp only
    split
    · exact p.bind (p.clerical (.modifyStats _)) fun _ => ih
    · exact ih

theorem timeOutEach (p : Scheduled A K) (ts : List TriggerRef) :
    K (World.timeOutEach fuel ts) := by
  induction ts with
  | nil => exact p.pure _
  | cons t ts ih => exact p.bind (p.timeOut t) fun _ => ih

theorem checkBatches (p : Scheduled A K) (rounds : Nat) (batch : List TriggerRef) :
    K (World.checkBatches fuel rounds batch) := by
  induction rounds generalizing batch with
  | zero =>
    cases batch with
    | nil => exact p.pure _
    | cons t rest => exact p.exhausted
  | succ rounds ih =>
    cases batch with
    | nil => exact p.pure _
    | cons t rest =>
      refine p.bind (p.checkEach _) fun _ => p.bind (p.clerical (.endBatch _)) fun _ => ?_
      refine p.look (fun _ _ => rfl) fun w _ => ?_
      exact p.bind (p.clerical .takeFresh) fun _ => ih _

theorem checkAll (p : Scheduled A K) : K (World.checkAll fuel) := by
  have hrun : World.checkAll fuel = (do
      let w ← get
      modify fun w => { w with pending := [], fresh := [] }
      World.checkBatches fuel fuel (w.pending ++ w.fresh)) := rfl
  rw [hrun]
  refine p.look (fun _ _ => rfl) fun w _ => ?_
  exact p.bind (p.clerical .takeAll) fun _ => p.checkBatches _ _

theorem expire (p : Scheduled A K) (now : Instant) : K (World.expire fuel now) := by
  have hrun : World.expire fuel now = (do
      let w ← get
      modify fun w => { w with pending := w.pending.filter fun t => !w.isExpired now t }
      World.timeOutEach fuel (w.pending.filter (w.isExpired now))
      modify fun v => (v.modifyStats fun s => { s with
        timedOut := s.timedOut + (w.pending.filter (w.isExpired now)).length }).prune) := rfl
  rw [hrun]
  refine p.look (fun _ _ => rfl) fun w _ => ?_
  refine p.bind (p.clerical (.takeExpired now)) fun _ => ?_
  exact p.bind (p.timeOutEach _) fun _ => p.clerical ((Clerical.modifyStats _).comp .prune)

theorem advance (p : Scheduled A K) (time : Instant) : K (World.advance fuel time) := by
  have hrun : World.advance fuel time = (do
      let w ← get
      if time.order w.now = .lt then return
      else
        modify fun w => { w with now := time }
        World.checkAll fuel
        World.expire fuel time) := by
    funext w
    change (ite _ _ _ : Exec Unit) w = (ite _ _ _ : Exec Unit) w
    split <;> rfl
  rw [hrun]
  refine p.look (fun _ _ => rfl) fun w _ => ?_
  split
  · exact p.pure _
  · refine p.bind (p.clerical (.setNow time)) fun _ => ?_
    exact p.bind p.checkAll fun _ => p.expire time

/-- An operation has the property if what the host itself does to the frames has
it, and the script that it runs. -/
theorem perform (p : Scheduled A K) (op : HostOp)
    (hframe : ∀ size session, op = .newFrame size session →
      K (modify fun w => (w.addFrame size session).2))
    (hbind : ∀ f slot v, op = .bind f slot v → K (Exec.writeSlot f slot v))
    (hrun : ∀ script f, op = .run script f → K (script.run fuel f)) : K (op.perform fuel) := by
  cases op with
  | newFrame size session => exact hframe size session rfl
  | bind f slot v => exact hbind f slot v rfl
  | run script f =>
    exact p.onFault (p.bind (hrun script f rfl) fun _ => p.pure _) fun _ => p.pure _
  | checkAll => exact p.checkAll
  | expire now => exact p.expire now
  | advance time => exact p.advance time
  | newSession => exact p.clerical .newSession
  | closeSession s => exact p.clerical (.closeSession s)
  | cancelAll => exact p.clerical .cancelAll

end Scheduled

/-! ## Two properties -/

/-- A property of engines that all that is clerical keeps, and so does the code
that triggers of such engines hold. -/
theorem Scheduled.of_preserves {I : World → Prop}
    (clerical : ∀ {w g}, Clerical g → I w → I (g w))
    (note : ∀ {w e}, (∀ i, Entry.startOf? i e = none) → I w →
      I { w with journal := e :: w.journal })
    (cond : ∀ {w t c}, I w → (w.trigger t).captured = some c →
      Keeps (Preserves I) (c.cond.eval c.frame))
    (body : ∀ {w t c state b}, I w → (w.trigger t).captured = some c →
      c.bodyFor state = some b → ∀ fuel, Keeps (Preserves I) (b.exec fuel c.frame)) :
    Scheduled I (Keeps (Preserves I)) where
  pure := .pure
  exhausted := .throw _
  bind := .bind
  onFault := .onFault
  look _ hk w hw := hk w hw w hw
  clerical hg _ hw := clerical hg hw
  note he _ hw := note he hw
  cond := cond
  body := body

/-- A relation between engines that differ in their frames only, which all that
is clerical keeps, and so does the code that triggers of related engines hold. -/
structure Parallel (S : World → World → Prop) : Prop where
  frames : ∀ {w v}, S w v → ∃ frames, v = { w with frames := frames }
  clerical : ∀ {w v g}, Clerical g → S w v → S (g w) (g v)
  note : ∀ {w v e}, (∀ i, Entry.startOf? i e = none) → S w v →
    S { w with journal := e :: w.journal } { v with journal := e :: v.journal }
  cond : ∀ {w v t c}, S w v → (w.trigger t).captured = some c →
    Simulates S (c.cond.eval c.frame) (c.cond.eval c.frame)
  body : ∀ {w v t c state b}, S w v → (w.trigger t).captured = some c →
    c.bodyFor state = some b → ∀ fuel, Simulates S (b.exec fuel c.frame) (b.exec fuel c.frame)

theorem Parallel.scheduled {S : World → World → Prop} (p : Parallel S) :
    Scheduled (fun w => ∃ v, S w v) fun x => Simulates S x x where
  pure := .pure
  exhausted := .throw _
  bind := .bind
  onFault := .onFault
  look hblind hk := by
    refine .look fun w v h => ?_
    obtain ⟨frames, rfl⟩ := p.frames h
    rw [hblind w frames]
    exact hk w ⟨_, h⟩
  clerical hg := .modify fun _ _ h => p.clerical hg h
  note he := .modify fun _ _ h => p.note he h
  cond h hc := p.cond h.choose_spec hc
  body h hc hb := p.body h.choose_spec hc hb

end Vigil.World
