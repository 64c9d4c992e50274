import Vigil.Proofs.Exec.Guarantee
import Vigil.Proofs.Exec.Steps

/-!
# Vigil.Proofs.Trigger.Tally — counters against the triggers themselves

The counters are raised apart from what they count: a trigger that fires is
counted after its body ran, those that time out or are cancelled together when
all of them have, and a `when` enters the journal before its trigger exists.
`World.Tally` says how the counters stand to the triggers at any moment, with
what is still owed to each final state. A trigger that leaves the pending state
adds to what is owed (`Tally.leave`), raising a counter pays it (`Tally.pay`),
and executions owe nothing (`Tally.exec`).
-/

namespace Vigil

variable {i : StmtInfo} {test : Expr} {body : Stmt} {timeout : Option Expr}
  {timeoutBody : Option Stmt} {isReturn : Bool} {state : TriggerState} {w : World}

/-! ## Numbered statements -/

/-- Numbers tell the form of a statement and of all below it. Without a `form`
to tell nothing is asked of them. -/
def Stmt.Numbered (form : Option (StmtId → StmtTag)) (s : Stmt) : Prop :=
  ∀ g ∈ form, ∀ t ∈ s.preorder, g t.id = t.tag

/-- All that a trigger may run is numbered. -/
structure Captured.Numbered (form : Option (StmtId → StmtTag)) (c : Captured) : Prop where
  body : c.body.Numbered form
  timeoutBody : ∀ b ∈ c.timeoutBody, b.Numbered form

namespace Stmt

variable {form : Option (StmtId → StmtTag)}

theorem Numbered.part {s t : Stmt} (hs : s.Numbered form) (h : t ∈ s.parts) : t.Numbered form :=
  fun g hg u hu => hs g hg u (preorder_subset_of_mem_parts h hu)

theorem Numbered.tag {s : Stmt} (hs : s.Numbered form) {g : StmtId → StmtTag} (hg : g ∈ form) :
    g s.id = s.tag :=
  hs g hg s s.self_mem_preorder

/-- A `when` passes its bodies to its trigger. -/
theorem Numbered.captured (hs : (Stmt.when i test body timeout timeoutBody isReturn).Numbered form)
    (f : FrameRef) :
    Captured.Numbered form ⟨test, body, timeoutBody, f⟩ := by
  cases timeoutBody with
  | none =>
    refine ⟨fun g hg u hu => hs g hg u (List.mem_cons_of_mem _ hu), fun b hb => by cases hb⟩
  | some timeoutBody =>
    refine ⟨fun g hg u hu => hs g hg u (List.mem_cons_of_mem _ (List.mem_append_left _ hu)),
      fun b hb => ?_⟩
    cases hb
    exact fun g hg u hu => hs g hg u (List.mem_cons_of_mem _ (List.mem_append_right _ hu))

end Stmt

/-- The note is about the start of a `when`. -/
def Entry.startsWhen (form : StmtId → StmtTag) : Entry → Bool
  | .start stmt _ => form stmt = .when
  | .look .. | .body .. | .defer .. => false

namespace World

/-- How many `when`s were executed. -/
def whens (form : StmtId → StmtTag) (w : World) : Nat := w.journal.countP (Entry.startsWhen form)

/-! ## Counting triggers -/

/-- All triggers that were created. -/
def refs (w : World) : List TriggerRef := (List.range w.triggers.size).map TriggerRef.mk

theorem mem_refs {t : TriggerRef} : t ∈ w.refs ↔ w.Created t := by
  unfold refs Created
  rw [List.mem_map]
  constructor
  · rintro ⟨i, hi, rfl⟩
    exact List.mem_range.mp hi
  · intro ht
    exact ⟨t.idx, List.mem_range.mpr ht, rfl⟩

theorem nodup_refs (w : World) : w.refs.Nodup :=
  List.nodup_range.map fun _ _ h => by cases h; rfl

theorem length_refs (w : World) : w.refs.length = w.triggers.size := by
  unfold refs
  rw [List.length_map, List.length_range]

/-- How many triggers there are of some kind. -/
def census (p : TriggerRef → Trigger → Bool) (w : World) : Nat :=
  w.refs.countP fun t => p t (w.trigger t)

/-- How many triggers are in a state. -/
def countIn (s : TriggerState) (w : World) : Nat := w.census fun _ tr => tr.state = s

variable {w w' : World} {t : TriggerRef} {p : TriggerRef → Trigger → Bool}

theorem census_congr (hsize : w'.triggers.size = w.triggers.size)
    (h : ∀ t, w.Created t → p t (w'.trigger t) = p t (w.trigger t)) :
    w'.census p = w.census p := by
  have hrefs : w'.refs = w.refs := by
    unfold refs
    rw [hsize]
  unfold census
  rw [hrefs]
  refine List.countP_congr fun t ht => ?_
  rw [h t (mem_refs.mp ht)]

theorem census_push {tr : Trigger} (h : w'.triggers = w.triggers.push tr) :
    w'.census p = w.census p + if p w.nextTrigger tr then 1 else 0 := by
  have hrefs : w'.refs = w.refs ++ [w.nextTrigger] := by
    unfold refs nextTrigger
    rw [h, Array.size_push, List.range_succ, List.map_append]
    rfl
  have hold : w.refs.countP (fun t => p t (w'.trigger t)) = w.census p := by
    refine List.countP_congr fun t ht => ?_
    rw [trigger_push_of_ne h (ne_nextTrigger (mem_refs.mp ht))]
  unfold census at hold ⊢
  rw [hrefs, List.countP_append, hold, List.countP_singleton, trigger_push_self h]

/-- One element more is counted. -/
theorem countP_succ {α : Type} {l : List α} {a : α} {p q : α → Bool} (hnodup : l.Nodup)
    (ha : a ∈ l) (hp : p a = false) (hq : q a = true) (hne : ∀ x ∈ l, x ≠ a → q x = p x) :
    l.countP q = l.countP p + 1 := by
  induction l with
  | nil => cases ha
  | cons b l ih =>
    obtain ⟨hb, hl⟩ := List.nodup_cons.mp hnodup
    rcases List.mem_cons.mp ha with rfl | ha
    · have hrest : l.countP q = l.countP p := by
        refine List.countP_congr fun x hx => ?_
        rw [hne x (List.mem_cons_of_mem _ hx) fun e => hb (e ▸ hx)]
      rw [List.countP_cons_of_pos hq, List.countP_cons_of_neg (by rw [hp]; nofun), hrest]
    · have hba : b ≠ a := fun e => hb (e ▸ ha)
      rw [List.countP_cons, List.countP_cons, hne b List.mem_cons_self hba,
        ih hl ha fun x hx => hne x (List.mem_cons_of_mem _ hx)]
      omega

theorem census_succ (hsize : w'.triggers.size = w.triggers.size) (ht : w.Created t)
    (hp : p t (w.trigger t) = false) (hq : p t (w'.trigger t) = true)
    (hne : ∀ u, u ≠ t → w'.trigger u = w.trigger u) : w'.census p = w.census p + 1 := by
  have hrefs : w'.refs = w.refs := by
    unfold refs
    rw [hsize]
  unfold census
  rw [hrefs]
  exact countP_succ w.nodup_refs (mem_refs.mpr ht) hp hq fun u _ hu => by rw [hne u hu]

end World

/-! ## The tally -/

namespace TriggerStats

/-- How many triggers are said to have reached a final state. One that was
refused is cancelled as well. -/
def reached (s : TriggerStats) : TriggerState → Nat
  | .pending => 0
  | .fired => s.fired
  | .timedOut => s.timedOut
  | .cancelled => s.cancelled + s.refused

/-- Count `k` more triggers that went from waiting to a final state. -/
def raise (state : TriggerState) (k : Nat) (s : TriggerStats) : TriggerStats :=
  match state with
  | .pending => s
  | .fired => { s with fired := s.fired + k }
  | .timedOut => { s with timedOut := s.timedOut + k }
  | .cancelled => { s with cancelled := s.cancelled + k }

theorem raise_registered (state : TriggerState) (k : Nat) (s : TriggerStats) :
    (s.raise state k).registered = s.registered ∧ (s.raise state k).refused = s.refused := by
  cases state <;> exact ⟨rfl, rfl⟩

theorem reached_raise (hstate : state.isTerminal) (k : Nat) (s : TriggerStats)
    (other : TriggerState) :
    (s.raise state k).reached other = s.reached other + if other = state then k else 0 := by
  cases state with
  | pending => cases hstate
  | _ => cases other <;> simp [raise, reached, Nat.add_right_comm]

end TriggerStats

namespace World

open Function (update)

/-- How the counters stand to the triggers. Some triggers have reached a final
state and are not counted yet, which is `owed`. Of the refused ones, those that
came after the world `b` are told apart. -/
structure Tally (form : Option (StmtId → StmtTag)) (b : World) (owed : TriggerState → Nat)
    (w : World) : Prop where
  base : b.triggers.size ≤ w.triggers.size
  reached : ∀ s, s.isTerminal → w.countIn s = w.stats.reached s + owed s
  created : w.triggers.size = w.stats.registered + w.stats.refused
  refused : w.stats.refused =
    b.stats.refused + w.census fun t tr => !decide (b.Created t) && tr.state = .cancelled
  whens : ∀ g ∈ form, w.whens g = w.triggers.size
  numbered : ∀ t c, (w.trigger t).captured = some c → c.Numbered form

variable {form : Option (StmtId → StmtTag)} {b w w' : World} {owed : TriggerState → Nat}
  {t : TriggerRef}

/-- The tally looks at states, at what triggers hold, at counters and at the
`when`s of the journal. -/
theorem Tally.same (h : Tally form b owed w) (hsize : w'.triggers.size = w.triggers.size)
    (htrigger : ∀ t, (w'.trigger t).state = (w.trigger t).state ∧
      (w'.trigger t).captured = (w.trigger t).captured)
    (hstats : w'.stats = w.stats) (hwhens : ∀ g ∈ form, w'.whens g = w.whens g) :
    Tally form b owed w' where
  base := by rw [hsize]; exact h.base
  reached s hs := by
    rw [hstats, ← h.reached s hs]
    exact census_congr hsize fun t _ => by rw [(htrigger t).1]
  created := by rw [hsize, hstats]; exact h.created
  refused := by
    rw [hstats, h.refused]
    refine congrArg _ (census_congr hsize fun t _ => ?_).symm
    rw [(htrigger t).1]
  whens g hg := by rw [hwhens g hg, hsize]; exact h.whens g hg
  numbered t c hc := h.numbered t c (by rw [← (htrigger t).2]; exact hc)

theorem Tally.of_triggers (h : Tally form b owed w) (htriggers : w'.triggers = w.triggers)
    (hstats : w'.stats = w.stats) (hwhens : ∀ g ∈ form, w'.whens g = w.whens g) :
    Tally form b owed w' := by
  have htrigger : ∀ t, w'.trigger t = w.trigger t := by
    intro t
    unfold trigger
    rw [htriggers]
  refine h.same (by rw [htriggers]) (fun t => ?_) hstats hwhens
  rw [htrigger]
  exact ⟨rfl, rfl⟩

/-- A trigger leaves the pending state, and is not counted yet. -/
theorem Tally.leave (h : Tally form b owed w) (hpend : (w.trigger t).state = .pending)
    (hstate : state.isTerminal) (hb : state = .cancelled → b.Created t) :
    Tally form b (update owed state (owed state + 1)) (w.leave t state) := by
  have hcreated := created_of_pending hpend
  have hself : (w.leave t state).trigger t =
      { w.trigger t with captured := none, state := state } :=
    trigger_modifyTrigger_self hcreated _
  have hne : ∀ u, u ≠ t → (w.leave t state).trigger u = w.trigger u :=
    fun u hu => trigger_modifyTrigger_of_ne hu _
  have hsize : (w.leave t state).triggers.size = w.triggers.size := by
    simp [World.leave, modifyTrigger]
  refine ⟨by rw [hsize]; exact h.base, fun s hs => ?_, by rw [hsize]; exact h.created, ?_,
    by rw [hsize]; exact h.whens, fun u c hc => ?_⟩
  · have hpend' : (w.trigger t).state ≠ s := by
      rw [hpend]
      exact fun e => isTerminal_iff.mp hs e.symm
    have hold := h.reached s hs
    by_cases heq : s = state
    · subst heq
      have hsucc : (w.leave t s).countIn s = w.countIn s + 1 :=
        census_succ hsize hcreated (by simpa using hpend') (by rw [hself]; simp) hne
      rw [hsucc, hold, Function.update_self]
      rfl
    · have hsame : (w.leave t state).countIn s = w.countIn s := by
        refine census_congr hsize fun u _ => ?_
        by_cases hu : u = t
        · subst hu
          rw [hself]
          simpa [hpend'] using fun e => heq e.symm
        · rw [hne u hu]
      rw [hsame, hold, Function.update_of_ne heq]
      rfl
  · refine h.refused.trans (congrArg _ (census_congr hsize fun u _ => ?_).symm)
    by_cases hu : u = t
    · subst hu
      rw [hself, hpend]
      by_cases hc : state = .cancelled
      · simp [hb hc]
      · simp [hc]
    · rw [hne u hu]
  · by_cases hu : u = t
    · subst hu
      rw [hself] at hc
      cases hc
    · rw [hne u hu] at hc
      exact h.numbered u c hc

/-- Raising a counter pays what is owed. -/
theorem Tally.pay {k : Nat} (h : Tally form b (update owed state (owed state + k)) w)
    (hstate : state.isTerminal) :
    Tally form b owed (w.modifyStats fun s => s.raise state k) := by
  obtain ⟨hregistered, hrefused⟩ := w.stats.raise_registered state k
  refine ⟨h.base, fun s hs => ?_, ?_, ?_, h.whens, h.numbered⟩
  · have hold : w.countIn s = _ := h.reached s hs
    change w.countIn s = (w.stats.raise state k).reached s + owed s
    rw [hold, TriggerStats.reached_raise hstate]
    by_cases heq : s = state
    · subst heq
      rw [Function.update_self, if_pos rfl]
      omega
    · rw [Function.update_of_ne heq, if_neg heq]
      rfl
  · change w.triggers.size = (w.stats.raise state k).registered + (w.stats.raise state k).refused
    rw [hregistered, hrefused]
    exact h.created
  · change (w.stats.raise state k).refused = _
    rw [hrefused]
    exact h.refused

/-- A `when` that entered the journal adds its trigger, and counts it as
registered or as refused. -/
theorem Tally.install {w₁ : World} (h : Tally form b owed w) (htriggers : w₁.triggers = w.triggers)
    (hstats : w₁.stats = w.stats) (hwhens : ∀ g ∈ form, w₁.whens g = w.whens g + 1)
    {c : Captured}
    (hc : c.Numbered form) (deadline : Option Instant) (isReturn : Bool) (span : Span) :
    Tally form b owed (w₁.install c deadline isReturn span) := by
  set w' := w₁.install c deadline isReturn span with hw'
  rw [install_eq] at hw'
  have hpush : w'.triggers = w.triggers.push (w₁.installed c deadline isReturn span) := by
    rw [hw', ← htriggers]
  have hsize : w'.triggers.size = w.triggers.size + 1 := by rw [hpush, Array.size_push]
  have hjournal : ∀ g, w'.whens g = w₁.whens g := by
    intro g
    rw [hw']
    cases isReturn <;> rfl
  have hnew : ¬ b.Created w.nextTrigger := Nat.not_lt.mpr h.base
  -- let in, it waits and counts as registered; else it is cancelled and counts as refused
  have hcases : ((w₁.installed c deadline isReturn span).state = .pending ∧
        w'.stats = { w.stats with registered := w.stats.registered + 1 }) ∨
      ((w₁.installed c deadline isReturn span).state = .cancelled ∧
        w'.stats = { w.stats with refused := w.stats.refused + 1 }) := by
    rw [hw', ← hstats]
    unfold installed
    by_cases hin : w₁.letsIn c
    · simp [hin]
    · simp [hin]
  refine ⟨?_, fun s hs => ?_, ?_, ?_, fun g hg => ?_, fun u d hd => ?_⟩
  · have := h.base
    omega
  · have hold := h.reached s hs
    unfold countIn at hold ⊢
    rw [census_push hpush, hold]
    rcases hcases with ⟨hstate, hst⟩ | ⟨hstate, hst⟩
    · have hne : ¬ TriggerState.pending = s := fun e => isTerminal_iff.mp hs e.symm
      rw [hstate, hst, if_neg (by simpa using hne)]
      cases s <;> rfl
    · rw [hstate, hst]
      cases s <;> simp [TriggerStats.reached]
      omega
  · have hold := h.created
    rcases hcases with ⟨-, hst⟩ | ⟨-, hst⟩
    · rw [hsize, hst, hold]
      exact Nat.add_right_comm _ _ _
    · rw [hsize, hst, hold]
      rfl
  · have hold := h.refused
    rw [census_push hpush]
    rcases hcases with ⟨hstate, hst⟩ | ⟨hstate, hst⟩
    · rw [hstate, hst]
      simpa using hold
    · rw [hstate, hst]
      simp [hnew]
      omega
  · rw [hjournal, hwhens g hg, hsize, h.whens g hg]
  · by_cases hu : u = w.nextTrigger
    · rw [hu, trigger_push_self hpush, installed] at hd
      dsimp only at hd
      split at hd
      · cases hd
        exact hc
      · cases hd
    · rw [trigger_push_of_ne hpush hu] at hd
      exact h.numbered u d hd

/-! ## Execution -/

/-- Whatever the tally was, it still is. -/
def KeepsTally (form : Option (StmtId → StmtTag)) (w w' : World) : Prop :=
  ∀ b owed, Tally form b owed w → Tally form b owed w'

instance : IsPreorder World (KeepsTally form) where
  refl _ _ _ h := h
  trans _ _ _ h h' b owed ht := h' b owed (h b owed ht)

theorem Aside.keepsTally (h : w.Aside w') : KeepsTally form w w' := by
  obtain ⟨_, _, _, _, rfl⟩ := h
  exact fun b owed ht => ht.of_triggers rfl rfl fun _ _ => rfl

end World

namespace Stmt

variable {fuel : Nat}

variable {f : FrameRef} {form : Option (StmtId → StmtTag)}

/-- A timeout that fails is none, so a `when` goes on to its trigger. -/
theorem deadline_ne_fault (timeout : Option Expr) (w : World) (e : Fault) :
    ((deadline f timeout).runFrom w).1 ≠ .error (.fault e) := by
  cases timeout with
  | none => nofun
  | some test =>
    unfold deadline
    rw [Exec.runFrom_bind, Exec.runFrom_onFault]
    rcases (some <$> test.eval f : Exec (Option Value)).runFrom w with ⟨(e | a | _) | v, w₁⟩
    · nofun
    · nofun
    · nofun
    · dsimp only
      split
      · rw [Exec.runFrom_bind, Exec.runFrom_get]
        dsimp only
        split <;> nofun
      · nofun
      · nofun

/-- A `when` that comes back entered the journal, saw to its deadline and added
its trigger. -/
theorem exec_when_apart
   (hback : Exec.cameBack
      (((Stmt.when i test body timeout timeoutBody isReturn).exec fuel f).runFrom w).1) :
    ∃ w₁ limit, World.Aside { w with journal := .start i.id w.now :: w.journal } w₁ ∧
      ((Stmt.when i test body timeout timeoutBody isReturn).exec fuel f).runFrom w =
        (.ok .next, w₁.install ⟨test, body, timeoutBody, f⟩ limit isReturn i.span) := by
  set w₁ : World := { w with journal := .start i.id w.now :: w.journal } with hw₁
  have hrun : ((Stmt.when i test body timeout timeoutBody isReturn).exec fuel f).runFrom w =
      (deadline f timeout >>= fun d => do
        modify (World.install ⟨test, body, timeoutBody, f⟩ d isReturn i.span)
        pure .next).runFrom w₁ := by
    rw [exec_eq, Exec.runFrom_bind, Exec.runFrom_visit]
    dsimp only
    rw [act, Stmt.install]
    simp only [bind_assoc]
    rfl
  rw [hrun, Exec.runFrom_bind] at hback ⊢
  have haside := (deadline_edits (f := f) timeout).aside w₁
  have hnone := deadline_ne_fault (f := f) timeout w₁
  unfold Exec.leaves at haside
  rcases hd : (deadline f timeout).runFrom w₁ with ⟨(e | a | _) | d, w₂⟩
  · rw [hd] at hnone
    exact absurd rfl (hnone e)
  · rw [hd] at hback
    cases hback
  · rw [hd] at hback
    cases hback
  · rw [hd] at haside
    exact ⟨w₂, d, haside, rfl⟩

/-- A `when` enters the journal and adds a trigger. -/
theorem when_keepsTally (hs : (Stmt.when i test body timeout timeoutBody isReturn).Numbered form) :
    Exec.Respects (World.KeepsTally form)
      ((Stmt.when i test body timeout timeoutBody isReturn).exec fuel f) := by
  intro w hback b owed ht
  obtain ⟨w₁, d, haside, hrun⟩ := exec_when_apart hback
  unfold Exec.leaves
  rw [hrun]
  have hsame : w₁.triggers = w.triggers ∧ w₁.stats = w.stats ∧
      w₁.journal = .start i.id w.now :: w.journal := by
    obtain ⟨_, _, _, _, rfl⟩ := haside
    exact ⟨rfl, rfl, rfl⟩
  obtain ⟨htriggers, hstats, hjournal⟩ := hsame
  refine ht.install htriggers hstats (fun g hg => ?_) (hs.captured f) d isReturn i.span
  have htag : g i.id = .when := hs.tag hg
  unfold World.whens
  rw [hjournal, List.countP_cons_of_pos (by simpa [Entry.startsWhen] using htag)]

theorem guarantee_keepsTally (fuel : Nat) (f : FrameRef) :
    Guarantee (Numbered form) fuel f (World.KeepsTally form) := by
  refine .of_aside (fun _ _ h => h.keepsTally) (fun s hs t ht => hs.part ht)
    (fun s hs htag w b owed ht => ?_) fun s hs htag => ?_
  · refine ht.of_triggers rfl rfl fun g hg => ?_
    have hnot : g s.id ≠ .when := by
      rw [hs.tag hg]
      exact htag
    exact List.countP_cons_of_neg (by simpa [Entry.startsWhen] using hnot)
  · cases s with
    | «when» i test body timeout timeoutBody isReturn => exact when_keepsTally hs
    | _ => cases htag

end Stmt

namespace World

open Function (update)

variable {form : Option (StmtId → StmtTag)} {b w w' : World} {owed : TriggerState → Nat}
  {t : TriggerRef} {fuel : Nat}

/-- Executions that come back keep the tally. -/
theorem Tally.exec (h : Tally form b owed w) {s : Stmt} (hs : s.Numbered form) {f : FrameRef}
    {r : Except Stop Outcome} (hrun : (s.exec fuel f).runFrom w = (r, w'))
    (hback : Exec.cameBack r) : Tally form b owed w' :=
  ((Stmt.guarantee_keepsTally fuel f).exec hs).of_eq hrun hback b owed h

end World

end Vigil
