import Vigil.Proofs.Exec.Steps
import Vigil.Proofs.History

/-!
# Vigil.Proofs.Trigger.Turns — what happens while the host acts

An operation of the host goes by turns. A turn is one step of a statement, a
look at one trigger, a timeout of one, or some bookkeeping between these, and
`Turn` says all that it does. `perform_turns` says that every operation, whatever
it ends in, is a sequence of turns: a fact about all histories is then a fact
about one turn, also where an operation breaks off in the middle.

While a pass or an expiry goes on it has triggers in hand that are in neither
list. The phase keeps them (`Phase`). They are lost when the operation breaks off,
and only then.
-/

namespace Vigil

open Relation (ReflTransGen)

/-- Where an operation is. -/
inductive Phase where
  /-- Nothing is in hand. -/
  | rest
  /-- A pass has a batch in hand; it looked at `seen` and will look at `todo`. -/
  | pass (seen todo : List TriggerRef)
  /-- Those in hand have a deadline that has come at `now`. -/
  | expiry (now : Instant) (todo : List TriggerRef)

/-- The triggers in hand. -/
def Phase.hand : Phase → List TriggerRef
  | .rest => []
  | .pass seen todo => seen ++ todo
  | .expiry _ todo => todo

/-- A condition that came to this does not hold: it is zero, or failed. -/
def Unmet : Except Stop Value → Prop
  | .ok v => v.isZero
  | .error (.fault _) => True
  | .error _ => False

namespace World

variable {α : Type} {a : Phase × World} {time : Instant}

/-- The world after a look at a trigger. -/
def looked (t : TriggerRef) (held : Bool) (w : World) : World :=
  { w with journal := .look t held :: w.journal }

/-- The world after a trigger entered a final state, with the body that goes
with it about to start if there is one. -/
def concluded (t : TriggerRef) (state : TriggerState) (c : Captured) (w : World) : World :=
  { w.leave t state with
    journal := (c.bodyFor state).toList.map (.body t state) ++ w.journal }

/-- One turn while `op` is performed, by an operation that gets `done` or breaks
off. -/
inductive Turn (op : HostOp) (done : Prop) : Phase × World → Phase × World → Prop where
  /-- A statement that runs goes one step. -/
  | step {p : Phase} {f : FrameRef} {w w' : World} (h : Step f w w') : Turn op done (p, w) (p, w')
  /-- The value of a body is kept. -/
  | result (p : Phase) (w : World) (t : TriggerRef) (v : Option Value) :
      Turn op done (p, w) (p, w.modifyTrigger t fun tr => { tr with result := v })
  | count (p : Phase) (w : World) (stats : TriggerStats) :
      Turn op done (p, w) (p, { w with stats := stats })
  | addFrame (w : World) (size : Nat) (session : Option SessionId) :
      Turn op done (.rest, w) (.rest, (w.addFrame size session).2)
  | clock (w : World) (time : Instant) (hop : op = .advance time) :
      Turn op done (.rest, w) (.rest, { w with now := time })
  | newSession (w : World) : Turn op done (.rest, w) (.rest, w.newSession.2)
  | closeSession (w : World) (s : SessionId) : Turn op done (.rest, w) (.rest, w.closeSession s)
  | cancelAll (w : World) : Turn op done (.rest, w) (.rest, w.cancelAll)
  /-- A pass starts with all that waits in hand. -/
  | openPass (w : World) (hop : op.isPass) :
      Turn op done (.rest, w)
        (.pass [] (w.pending ++ w.fresh), { w with pending := [], fresh := [] })
  /-- There is nothing to look at. -/
  | skip (seen todo : List TriggerRef) (t : TriggerRef) (w : World)
      (hnone : (w.trigger t).state = .pending → (w.trigger t).captured = none) :
      Turn op done (.pass seen (t :: todo), w) (.pass (seen ++ [t]) todo, w)
  | unmet (seen todo : List TriggerRef) {t : TriggerRef} {c : Captured} {w w₁ : World}
      {r : Except Stop Value} (hpend : (w.trigger t).state = .pending)
      (hc : (w.trigger t).captured = some c)
      (heval : (c.cond.eval c.frame).runFrom w = (r, w₁)) (hr : Unmet r) :
      Turn op done (.pass seen (t :: todo), w) (.pass (seen ++ [t]) todo, w₁.looked t false)
  | fires (seen todo : List TriggerRef) {t : TriggerRef} {c : Captured} {w w₁ : World} {v : Value}
      (hpend : (w.trigger t).state = .pending) (hc : (w.trigger t).captured = some c)
      (heval : (c.cond.eval c.frame).runFrom w = (.ok v, w₁)) (hv : v.isZero = false) :
      Turn op done (.pass seen (t :: todo), w)
        (.pass (seen ++ [t]) todo, (w₁.looked t true).concluded t .fired c)
  /-- What was registered during a batch is the next one. -/
  | endBatch (seen : List TriggerRef) (w : World) :
      Turn op done (.pass seen [], w)
        (.pass [] (w.endBatch seen).fresh, { w.endBatch seen with fresh := [] })
  /-- An expiry takes those whose deadline has come in hand. -/
  | openExpiry (now : Instant) (w : World) (hop : op.expiry? = some now) :
      Turn op done (.rest, w)
        (.expiry now (w.pending.filter (w.isExpired now)),
          { w with pending := w.pending.filter fun t => !w.isExpired now t })
  | ignore (now : Instant) (todo : List TriggerRef) (t : TriggerRef) (w : World)
      (hnone : (w.trigger t).state = .pending → (w.trigger t).captured = none) :
      Turn op done (.expiry now (t :: todo), w) (.expiry now todo, w)
  | timesOut (now : Instant) (todo : List TriggerRef) {t : TriggerRef} {c : Captured} {w : World}
      (hpend : (w.trigger t).state = .pending) (hc : (w.trigger t).captured = some c) :
      Turn op done (.expiry now (t :: todo), w) (.expiry now todo, w.concluded t .timedOut c)
  | prune (now : Instant) (w : World) : Turn op done (.expiry now [], w) (.rest, w.prune)
  /-- The operation ends, or breaks off and loses what it has in hand. -/
  | drop (p : Phase) (w : World) (hhand : done → p.hand = []) : Turn op done (p, w) (.rest, w)

/-- A sequence of turns. -/
def Turns (op : HostOp) (done : Prop) : Phase × World → Phase × World → Prop :=
  ReflTransGen (Turn op done)

variable {op : HostOp} {done : Prop} {p q : Phase} {w w' : World} {t : TriggerRef} {fuel : Nat}

theorem Turns.of_steps {f : FrameRef} (h : ReflTransGen (Step f) w w') :
    Turns op done (p, w) (p, w') := by
  induction h with
  | refl => exact .refl
  | tail _ hstep ih => exact ih.tail (.step hstep)

/-- A computation started at `a` goes by turns, into the phase `q` if it
returns. -/
def Arrives {α : Type} (op : HostOp) (done : Prop) (a : Phase × World) (q : Phase)
    (r : Except Stop α × World) : Prop :=
  ∃ p, Turns op done a (p, r.2) ∧ (r.1.isOk → p = q)

theorem Arrives.after {b : Phase × World} {r : Except Stop α × World} (h : Turns op done a b)
    (hr : Arrives op done b q r) : Arrives op done a q r := by
  rcases hr with ⟨p, hp, hok⟩
  exact ⟨p, h.trans hp, hok⟩

theorem Arrives.of_turns {r : Except Stop α × World} (h : Turns op done a (q, r.2)) :
    Arrives op done a q r := ⟨q, h, fun _ => rfl⟩

/-- A computation that breaks off may do so in any phase. -/
theorem Arrives.broken {s : Stop} (h : Turns op done a (p, w')) :
    Arrives op done a q ((.error s, w') : Except Stop α × World) :=
  ⟨p, h, fun hok => by cases hok⟩

/-- What broke off before also breaks off what comes after it. -/
theorem Arrives.stopped {β : Type} {q' : Phase} {s : Stop}
    (h : Arrives op done a q' ((.error s, w') : Except Stop β × World)) :
    Arrives op done a q ((.error s, w') : Except Stop α × World) := by
  rcases h with ⟨p, hp, -⟩
  exact .broken hp

theorem Arrives.ok {x : α} (h : Arrives op done a q (.ok x, w')) : Turns op done a (q, w') := by
  rcases h with ⟨p, hp, hok⟩
  exact hok rfl ▸ hp

/-- Whatever an operation ends in, nothing is in hand then. -/
theorem Arrives.rest {r : Except Stop α × World} (h : Arrives op done a q r)
    (hq : q.hand = []) (hdone : done → r.1.isOk) : Turns op done a (.rest, r.2) := by
  rcases h with ⟨p, hp, hok⟩
  exact hp.tail (.drop p r.2 fun hd => hok (hdone hd) ▸ hq)

/-! ## One trigger -/

theorem runBody_turns (f : FrameRef) (body : Stmt) :
    Turns op done (p, w) (p, (runBody fuel t f body).leaves w) := by
  unfold Exec.leaves
  rw [runFrom_runBody]
  rcases hx : (body.exec fuel f).runFrom w with ⟨(e | e | _) | out, w₁⟩
  all_goals
    have hturns : Turns op done (p, w) (p, w₁) := .of_steps ((Stmt.exec_moves fuel f body).steps hx)
  · exact hturns
  · exact hturns
  · exact hturns
  · dsimp only
    split
    · exact hturns.tail (.result p w₁ t out.value)
    · exact hturns

theorem settle_turns (state : TriggerState) (c : Captured) :
    Turns op done (p, w.concluded t state c) (p, (settle fuel t state c).leaves w) := by
  unfold Exec.leaves
  rw [runFrom_settle]
  cases hb : c.bodyFor state with
  | none =>
    have hw : w.concluded t state c = w.leave t state := by
      unfold concluded
      rw [hb]
      rfl
    rw [hw]
    exact .refl
  | some body =>
    have hw : w.concluded t state c = w.settled t state body := by
      unfold concluded
      rw [hb]
      rfl
    rw [hw]
    exact runBody_turns c.frame body

/-- Whether a condition holds is whether its value is zero; one that fails does
not hold. -/
theorem runFrom_holds (c : Captured) (w : World) :
    (holds c).runFrom w = match (c.cond.eval c.frame).runFrom w with
      | (.ok v, w₁) => (.ok !v.isZero, w₁)
      | (.error (.fault _), w₁) => (.ok false, w₁)
      | (.error s, w₁) => (.error s, w₁) := by
  unfold holds
  rw [Exec.runFrom_onFault, Exec.runFrom_bind]
  rcases (c.cond.eval c.frame).runFrom w with ⟨(e | e | _) | v, w₁⟩ <;> rfl

/-- A look at a trigger that waits, whatever it ends in. -/
theorem runFrom_check {c : Captured} (fuel : Nat) (hpend : (w.trigger t).state = .pending)
    (hc : (w.trigger t).captured = some c) :
    (check fuel t).runFrom w = match (holds c).runFrom w with
      | (.ok true, w₁) => match (settle fuel t .fired c).runFrom (w₁.looked t true) with
        | (.ok (), w₂) => (.ok (w₂.trigger t).state, w₂)
        | (.error s, w₂) => (.error s, w₂)
      | (.ok false, w₁) => (.ok (w₁.trigger t).state, w₁.looked t false)
      | (.error s, w₁) => (.error s, w₁) := by
  unfold check
  rw [Exec.runFrom_bind, Exec.runFrom_get]
  dsimp only
  rw [hpend, hc]
  dsimp only
  rw [Exec.runFrom_bind]
  rcases (holds c).runFrom w with ⟨s | _ | _, w₁⟩
  · rfl
  · rfl
  · dsimp only
    rw [Exec.runFrom_bind, Exec.runFrom_note]
    dsimp only
    rw [if_pos rfl, Exec.runFrom_bind, looked]
    rcases (settle fuel t .fired c).runFrom _ with ⟨s | _, w₂⟩ <;> rfl

theorem runFrom_check_of_not_waiting (fuel : Nat)
    (hnone : (w.trigger t).state = .pending → (w.trigger t).captured = none) :
    (check fuel t).runFrom w = (.ok (w.trigger t).state, w) := by
  unfold check
  rw [Exec.runFrom_bind, Exec.runFrom_get]
  dsimp only
  split
  · rename_i c hpend hc
    rw [hnone hpend] at hc
    cases hc
  · rfl

theorem check_turns (seen todo : List TriggerRef) :
    Arrives op done (.pass seen (t :: todo), w) (.pass (seen ++ [t]) todo)
      ((check fuel t).runFrom w) := by
  by_cases hwaits : ∃ c, (w.trigger t).state = .pending ∧ (w.trigger t).captured = some c
  · rcases hwaits with ⟨c, hpend, hc⟩
    have hmoves := Exec.Moves.of_local (c.cond.eval_local c.frame)
    rw [runFrom_check fuel hpend hc, runFrom_holds]
    rcases heval : (c.cond.eval c.frame).runFrom w with ⟨(e | e | _) | v, w₁⟩
    · exact .of_turns (.single (.unmet seen todo hpend hc heval trivial))
    · exact .broken (.of_steps (hmoves.steps heval))
    · exact .broken (.of_steps (hmoves.steps heval))
    · dsimp only
      cases hv : v.isZero with
      | true =>
        have hzero : Unmet (.ok v) := hv
        exact .of_turns (.single (.unmet seen todo hpend hc heval hzero))
      | false =>
        -- the trigger is final before its body runs, which may break off
        have hfires : Turns op done (.pass seen (t :: todo), w)
            (.pass (seen ++ [t]) todo, (w₁.looked t true).concluded t .fired c) :=
          .single (.fires seen todo hpend hc heval hv)
        have hbody : Turns op done (.pass (seen ++ [t]) todo, (w₁.looked t true).concluded t .fired c)
            (.pass (seen ++ [t]) todo, (settle fuel t .fired c).leaves (w₁.looked t true)) :=
          settle_turns .fired c
        unfold Exec.leaves at hbody
        rw [Bool.not_false]
        dsimp only
        rcases hsettle : (settle fuel t .fired c).runFrom (w₁.looked t true) with ⟨s | _, w₂⟩
        all_goals rw [hsettle] at hbody
        · exact .broken (hfires.trans hbody)
        · exact .of_turns (hfires.trans hbody)
  · have hnone : (w.trigger t).state = .pending → (w.trigger t).captured = none := by
      intro hpend
      by_contra hsome
      rcases Option.ne_none_iff_exists'.mp hsome with ⟨c, hc⟩
      exact hwaits ⟨c, hpend, hc⟩
    rw [runFrom_check_of_not_waiting fuel hnone]
    exact .of_turns (.single (.skip seen todo t w hnone))

theorem timeOut_turns (now : Instant) (todo : List TriggerRef) :
    Arrives op done (.expiry now (t :: todo), w) (.expiry now todo) ((timeOut fuel t).runFrom w) := by
  unfold timeOut
  rw [Exec.runFrom_bind, Exec.runFrom_get]
  dsimp only
  split
  · rename_i c hpend hc
    have hleft : Turns op done (.expiry now (t :: todo), w)
        (.expiry now todo, w.concluded t .timedOut c) :=
      .single (.timesOut now todo hpend hc)
    exact .of_turns (hleft.trans (settle_turns .timedOut c))
  · rename_i hnot
    refine .of_turns (.single (.ignore now todo t w fun hpend => ?_))
    exact Option.eq_none_iff_forall_ne_some.mpr fun c hc => hnot c hpend hc

/-! ## Passes -/

theorem counted_turns (p : Phase) (w : World) (state : TriggerState) :
    Turns op done (p, w) (p, w.counted state) := by
  unfold counted
  split
  · exact .single (.count p w _)
  · exact .refl

theorem checkEach_turns (seen ts : List TriggerRef) :
    Arrives op done (.pass seen ts, w) (.pass (seen ++ ts) []) ((checkEach fuel ts).runFrom w) := by
  induction ts generalizing seen w with
  | nil =>
    rw [List.append_nil]
    exact .of_turns .refl
  | cons t ts ih =>
    rw [runFrom_checkEach_cons]
    have hlook : Arrives op done (.pass seen (t :: ts), w) (.pass (seen ++ [t]) ts)
      ((check fuel t).runFrom w) := check_turns seen ts
    rcases hcheck : (check fuel t).runFrom w with ⟨s | state, w₁⟩
    all_goals rw [hcheck] at hlook
    · exact hlook.stopped
    · have hrest := ih (w := w₁.counted state) (seen ++ [t])
      rw [List.append_assoc] at hrest
      exact .after (hlook.ok.trans (counted_turns _ w₁ state)) hrest

theorem checkBatches_turns (rounds : Nat) (batch : List TriggerRef) :
    Arrives op done (.pass [] batch, w) (.pass [] []) ((checkBatches fuel rounds batch).runFrom w) := by
  induction rounds generalizing batch w with
  | zero =>
    cases batch with
    | nil => exact .of_turns .refl
    | cons t rest => exact .broken .refl
  | succ rounds ih =>
    by_cases hne : batch = []
    · subst hne
      exact .of_turns .refl
    · rw [runFrom_checkBatches_succ fuel rounds hne]
      have hbatch : Arrives op done (.pass [] batch, w) (.pass batch [])
        ((checkEach fuel batch).runFrom w) := checkEach_turns [] batch
      rcases heach : (checkEach fuel batch).runFrom w with ⟨s | _, w₁⟩
      all_goals rw [heach] at hbatch
      · exact hbatch.stopped
      · exact .after (hbatch.ok.tail (.endBatch batch w₁)) (ih _)

/-- A pass from where it has taken all that waits in hand. -/
theorem checkAll_turns (w : World) :
    Arrives op done (.pass [] (w.pending ++ w.fresh), { w with pending := [], fresh := [] })
      (.pass [] []) ((checkAll fuel).runFrom w) :=
  checkBatches_turns fuel (w.pending ++ w.fresh)

/-! ## Time -/

theorem timeOutEach_turns (now : Instant) (ts : List TriggerRef) :
    Arrives op done (.expiry now ts, w) (.expiry now []) ((timeOutEach fuel ts).runFrom w) := by
  induction ts generalizing w with
  | nil => exact .of_turns .refl
  | cons t ts ih =>
    have hfirst : Arrives op done (.expiry now (t :: ts), w) (.expiry now ts)
      ((timeOut fuel t).runFrom w) := timeOut_turns now ts
    rw [timeOutEach, Exec.runFrom_bind]
    rcases htime : (timeOut fuel t).runFrom w with ⟨s | _, w₁⟩
    all_goals rw [htime] at hfirst
    · exact hfirst.stopped
    · exact .after hfirst.ok ih

theorem runFrom_expire (fuel : Nat) (now : Instant) (w : World) :
    (expire fuel now).runFrom w =
      match (timeOutEach fuel (w.pending.filter (w.isExpired now))).runFrom
          { w with pending := w.pending.filter fun t => !w.isExpired now t } with
      | (.ok (), w₁) => (.ok (), (w₁.modifyStats fun s => { s with
          timedOut := s.timedOut + (w.pending.filter (w.isExpired now)).length }).prune)
      | (.error s, w₁) => (.error s, w₁) := by
  unfold expire
  rw [Exec.runFrom_bind, Exec.runFrom_get]
  dsimp only
  rw [Exec.runFrom_bind]
  change (timeOutEach fuel (w.pending.filter (w.isExpired now)) >>= fun _ => modify fun w₁ =>
    prune (w₁.modifyStats fun s => { s with
      timedOut := s.timedOut + (w.pending.filter (w.isExpired now)).length })).runFrom
    { w with pending := w.pending.filter fun t => !w.isExpired now t } = _
  rw [Exec.runFrom_bind]
  rcases (timeOutEach fuel _).runFrom _ with ⟨s | _, w₁⟩ <;> rfl

theorem expire_turns {now : Instant} (hop : op.expiry? = some now) :
    Arrives op done (.rest, w) .rest ((expire fuel now).runFrom w) := by
  refine .after (.single (.openExpiry now w hop)) ?_
  rw [runFrom_expire]
  set due := w.pending.filter (w.isExpired now)
  set w₀ : World := { w with pending := w.pending.filter fun t => !w.isExpired now t }
  have heach : Arrives op done (.expiry now due, w₀) (.expiry now [])
    ((timeOutEach fuel due).runFrom w₀) := timeOutEach_turns now due
  rcases htime : (timeOutEach fuel due).runFrom w₀ with ⟨s | _, w₁⟩
  all_goals rw [htime] at heach
  · exact heach.stopped
  · exact .of_turns ((heach.ok.tail (.count _ w₁ _)).tail (.prune now _))

theorem runFrom_advance (hpast : time.order w.now ≠ .lt) :
    (advance fuel time).runFrom w =
      (checkAll fuel >>= fun _ => expire fuel time).runFrom { w with now := time } := by
  unfold advance
  rw [Exec.runFrom_bind, Exec.runFrom_get]
  dsimp only
  rw [if_neg hpast]
  rfl

theorem runFrom_advance_past (hpast : time.order w.now = .lt) :
    (advance fuel time).runFrom w = (.ok (), w) := by
  unfold advance
  rw [Exec.runFrom_bind, Exec.runFrom_get]
  dsimp only
  rw [if_pos hpast]
  rfl

/-- Time that moves on, from where the pass has all that waits in hand. -/
theorem advance_turns (hop : op = .advance time) (hpast : time.order w.now ≠ .lt) :
    Arrives op done (.pass [] (w.pending ++ w.fresh), { w with now := time, pending := [], fresh := [] })
      .rest ((advance fuel time).runFrom w) := by
  rw [runFrom_advance hpast, Exec.runFrom_bind]
  set w₀ : World := { w with now := time }
  have hpass : Arrives op done
    (.pass [] (w₀.pending ++ w₀.fresh), { w₀ with pending := [], fresh := [] }) (.pass [] [])
    ((checkAll fuel).runFrom w₀) := checkAll_turns w₀
  rcases hall : (checkAll fuel).runFrom w₀ with ⟨s | _, w₁⟩
  all_goals rw [hall] at hpass
  · exact hpass.stopped
  · exact .after (hpass.ok.tail (.drop _ w₁ fun _ => rfl)) (expire_turns (by rw [hop]; rfl))

/-! ## Operations -/

/-- Whatever an operation ends in, it got there by turns. -/
theorem perform_turns (op : HostOp) (fuel : Nat) (w : World) :
    Turns op ((op.perform fuel).runFrom w).1.isOk (.rest, w) (.rest, (op.perform fuel).leaves w) := by
  cases op with
  | newFrame size session => exact .single (.addFrame w size session)
  | bind f slot v =>
    exact .of_steps (Exec.Moves.of_local (.writeSlot slot v) w)
  | run script f =>
    have hrun : Exec.Moves f
        (Exec.onFault (do let _ ← script.run fuel f) fun _ => pure () : Exec Unit) :=
      .onFault (.bind (Stmt.exec_moves fuel f script.body) fun _ => .pure _) fun _ => .pure _
    exact .of_steps (hrun w)
  | checkAll =>
    exact (ReflTransGen.single (.openPass w rfl)).trans ((checkAll_turns w).rest rfl id)
  | expire now => exact (expire_turns rfl).rest rfl id
  | advance time =>
    by_cases hpast : time.order w.now = .lt
    · unfold Exec.leaves
      rw [HostOp.perform, runFrom_advance_past hpast]
      exact .refl
    · refine ((ReflTransGen.single (.clock w time rfl)).tail (.openPass _ rfl)).trans ?_
      exact (advance_turns rfl hpast).rest rfl id
  | newSession => exact .single (.newSession w)
  | closeSession s => exact .single (.closeSession w s)
  | cancelAll => exact .single (.cancelAll w)

end World

end Vigil
