import Vigil.Proofs.Trigger.Turns
import Mathlib.Data.List.Perm.Subperm

/-!
# Vigil.Proofs.Trigger.Roster — what every turn keeps

Between any two turns the triggers in hand and those listed are all different,
the listed ones wait, and those that wait have their session open (`Roster`).
This holds after an operation that broke off as well, where a trigger may wait
that is listed nowhere.

* `Turn.roster` — a turn keeps the roster.
* `Turn.queue` — a turn adds to those in hand or listed only what it creates.
* `Ever.invariant` — what every turn keeps holds in every history.
-/

namespace Vigil

variable {c : Captured} {tr : Trigger}

/-- The trigger holds what it was created with while it waits, and else nothing. -/
def Trigger.Holds (tr : Trigger) : Prop :=
  tr.captured = if tr.state = .pending then some tr.origin else none

theorem Trigger.Holds.isSome_iff (h : tr.Holds) : tr.state = .pending ↔ tr.captured.isSome := by
  rw [h]
  split <;> simp [*]

theorem Trigger.Holds.origin_eq (h : tr.Holds) (hc : tr.captured = some c) : tr.origin = c := by
  rw [h] at hc
  split at hc <;> cases hc
  rfl

namespace World

variable {op : HostOp} {done : Prop} {p p' : Phase} {w w' : World} {t u : TriggerRef} {f : FrameRef}
  {e : Expr} {r : Except Stop Value} {s : SessionId} {seen : List TriggerRef}
  {I : Phase → World → Prop}

/-! ## Single changes -/

theorem local_leaves {α : Type} {x : Exec α} {r : Except Stop α} (hx : Exec.Local f x)
    (h : x.runFrom w = (r, w')) : ∃ heap slots, w' = w.withStore f heap slots := by
  obtain ⟨heap, slots, hleaves⟩ := hx.leaves_store w
  unfold Exec.leaves at hleaves
  rw [h] at hleaves
  exact ⟨heap, slots, hleaves⟩

theorem eval_leaves (h : (e.eval f).runFrom w = (r, w')) :
    ∃ heap slots, w' = w.withStore f heap slots := local_leaves (e.eval_local f) h

theorem holds_leaves {r : Except Stop Bool} (h : (holds c).runFrom w = (r, w')) :
    ∃ heap slots, w' = w.withStore c.frame heap slots :=
  local_leaves (.onFault (.bind (c.cond.eval_local c.frame) fun _ => .pure _) fun _ => .pure _) h

section Concluded

variable (state : TriggerState) (c : Captured)

theorem trigger_concluded_self (ht : w.Created t) :
    (w.concluded t state c).trigger t = { w.trigger t with captured := none, state := state } :=
  trigger_modifyTrigger_self ht _

theorem trigger_concluded_of_ne (hu : u ≠ t) : (w.concluded t state c).trigger u = w.trigger u :=
  trigger_modifyTrigger_of_ne hu _

/-- What still waits is another trigger than the one that left. -/
theorem ne_of_waits (ht : w.Created t) (hstate : state.isTerminal)
    (hpend : ((w.concluded t state c).trigger u).state = .pending) : u ≠ t := by
  rintro rfl
  rw [trigger_concluded_self state c ht] at hpend
  exact isTerminal_iff.mp hstate hpend

theorem size_concluded : (w.concluded t state c).triggers.size = w.triggers.size :=
  Array.size_modify

end Concluded

theorem trigger_cancelEach (w : World) (ts : List TriggerRef) (u : TriggerRef) :
    (w.cancelEach ts).trigger u =
      if u ∈ ts ∧ (w.trigger u).state = .pending then
        { w.trigger u with captured := none, state := .cancelled }
      else w.trigger u :=
  trigger_foldl_cancel w ts u

theorem cancelEach_eq (w : World) (ts : List TriggerRef) :
    ∃ trs stats, w.cancelEach ts = { w with triggers := trs, stats := stats } ∧
      trs.size = w.triggers.size := by
  rcases foldl_cancel_eq w ts with ⟨trs, heq, hsize⟩
  unfold cancelEach
  rw [heq]
  exact ⟨trs, _, rfl, hsize⟩

/-! ## Closing a session -/

section CloseSession

variable {s : SessionId}

theorem closeSession_of_closed (hs : w.isOpen s = false) : w.closeSession s = w := by
  unfold closeSession
  rw [hs]
  rfl

theorem closeSession_eq (hs : w.isOpen s) :
    ∃ trs stats, w.closeSession s =
        prune { w with
          openSessions := w.openSessions.filter (· != s), triggers := trs, stats := stats } ∧
      trs.size = w.triggers.size := by
  unfold closeSession
  rw [if_pos hs]
  dsimp only
  rcases cancelEach_eq { w with openSessions := w.openSessions.filter (· != s) }
    ((w.pending ++ w.fresh).filter fun t => (w.trigger t).session == some s)
    with ⟨trs, stats, heq, hsize⟩
  rw [heq]
  exact ⟨trs, stats, rfl, hsize⟩

/-- Nothing is noted, numbered or listed anew. -/
theorem closeSession_fields (s : SessionId) (w : World) :
    (w.closeSession s).journal = w.journal ∧ (w.closeSession s).nextSession = w.nextSession ∧
      (w.closeSession s).triggers.size = w.triggers.size ∧
      (w.closeSession s).pending.Sublist w.pending ∧ (w.closeSession s).fresh.Sublist w.fresh := by
  by_cases hs : w.isOpen s
  · rcases closeSession_eq hs with ⟨trs, stats, heq, hsize⟩
    rw [heq]
    exact ⟨rfl, rfl, hsize, List.filter_sublist, List.filter_sublist⟩
  · rw [closeSession_of_closed (Bool.eq_false_iff.mpr hs)]
    exact ⟨rfl, rfl, rfl, .refl _, .refl _⟩

theorem isOpen_closeSession {s' : SessionId} :
    (w.closeSession s).isOpen s' ↔ w.isOpen s' ∧ s' ≠ s := by
  by_cases hs : w.isOpen s
  · rcases closeSession_eq hs with ⟨trs, stats, heq, -⟩
    rw [heq]
    simp [isOpen, prune]
  · rw [closeSession_of_closed (Bool.eq_false_iff.mpr hs)]
    constructor
    · intro hs'
      refine ⟨hs', ?_⟩
      rintro rfl
      exact hs hs'
    · exact fun h => h.1

end CloseSession

/-! ## The roster -/

/-- The triggers in hand and those listed. -/
def queue (p : Phase) (w : World) : List TriggerRef := p.hand ++ (w.pending ++ w.fresh)

/-- What holds between any two turns. -/
structure Roster (p : Phase) (w : World) : Prop where
  holds : ∀ t, (w.trigger t).Holds
  created : ∀ t ∈ p.hand, w.Created t
  nodup : (queue p w).Nodup
  listed : ∀ t ∈ w.pending ++ w.fresh, (w.trigger t).state = .pending
  session : ∀ t ∈ queue p w, ∀ s, (w.trigger t).state = .pending →
    (w.trigger t).session = some s → w.isOpen s
  numbered : ∀ s, w.isOpen s → s < w.nextSession

theorem Roster.start (now : Instant) (limits : Limits) : Roster .rest (.start now limits) where
  holds t := rfl
  created t ht := by cases ht
  nodup := List.nodup_nil
  listed t ht := by cases ht
  session t ht := by cases ht
  numbered s hs := by cases hs

theorem Roster.created_of_queue (hr : Roster p w) (ht : t ∈ queue p w) : w.Created t := by
  rcases List.mem_append.mp ht with hhand | hlisted
  · exact hr.created t hhand
  · exact created_of_pending (hr.listed t hlisted)

theorem Roster.not_listed (hr : Roster p w) (ht : t ∈ p.hand) : t ∉ w.pending ++ w.fresh := by
  intro hlisted
  exact (List.nodup_append.mp hr.nodup).2.2 t ht t hlisted rfl

/-- Those of the session that are listed and wait are cancelled, and no other
trigger changes. -/
theorem Roster.trigger_closeSession (hr : Roster .rest w) (s : SessionId) (u : TriggerRef) :
    (w.closeSession s).trigger u =
      if u ∈ w.pending ++ w.fresh ∧ (w.trigger u).session = some s ∧
          (w.trigger u).state = .pending then
        { w.trigger u with captured := none, state := .cancelled }
      else w.trigger u := by
  by_cases hs : w.isOpen s
  · unfold closeSession
    rw [if_pos hs]
    refine (trigger_cancelEach _ _ u).trans (if_congr ?_ rfl rfl)
    have hmem : u ∈ (w.pending ++ w.fresh).filter (fun t => (w.trigger t).session == some s) ↔
        u ∈ w.pending ++ w.fresh ∧ (w.trigger u).session = some s := by
      rw [List.mem_filter, beq_iff_eq]
    rw [hmem, and_assoc]
    rfl
  · rw [closeSession_of_closed (Bool.eq_false_iff.mpr hs)]
    exact (if_neg fun h => hs (hr.session u h.1 s h.2.2 h.2.1)).symm

/-- Those of other sessions stay listed, in their order. -/
theorem Roster.closeSession_lists (hr : Roster .rest w) (s : SessionId) :
    (w.closeSession s).pending = w.pending.filter (fun t => (w.trigger t).session != some s) ∧
      (w.closeSession s).fresh = w.fresh.filter fun t => (w.trigger t).session != some s := by
  have hwaits : ∀ t ∈ w.pending ++ w.fresh,
      (!((w.closeSession s).trigger t).state.isTerminal) = ((w.trigger t).session != some s) := by
    intro t ht
    rw [hr.trigger_closeSession]
    by_cases howned : (w.trigger t).session = some s
    · rw [if_pos ⟨ht, howned, hr.listed t ht⟩]
      simp [howned, TriggerState.isTerminal]
    · rw [if_neg fun h => howned h.2.1, hr.listed t ht]
      simpa [TriggerState.isTerminal] using howned
  have hpending := List.filter_congr fun t ht => hwaits t (List.mem_append_left w.fresh ht)
  have hfresh := List.filter_congr fun t ht => hwaits t (List.mem_append_right w.pending ht)
  rw [← hpending, ← hfresh]
  -- pruning leaves the triggers as they are, so it may look at them afterwards
  by_cases hs : w.isOpen s
  · rcases closeSession_eq hs with ⟨trs, stats, heq, -⟩
    rw [heq]
    exact ⟨rfl, rfl⟩
  · have hlisted t ht := waits_iff.mpr (hr.listed t ht)
    rw [closeSession_of_closed (Bool.eq_false_iff.mpr hs)]
    constructor
    · exact (List.filter_eq_self.mpr fun t ht => hlisted t (List.mem_append_left _ ht)).symm
    · exact (List.filter_eq_self.mpr fun t ht => hlisted t (List.mem_append_right _ ht)).symm

/-- Nothing but results and the journal changed in what is told about triggers
and sessions. -/
structure SameRoster (w w' : World) : Prop where
  trigger : ∀ t, ∃ r, w'.trigger t = { w.trigger t with result := r }
  size : w'.triggers.size = w.triggers.size
  pending : w'.pending = w.pending
  fresh : w'.fresh = w.fresh
  openSessions : w'.openSessions = w.openSessions
  nextSession : w'.nextSession = w.nextSession

theorem SameRoster.state (h : SameRoster w w') (t : TriggerRef) :
    (w'.trigger t).state = (w.trigger t).state := by
  rcases h.trigger t with ⟨r, hr⟩
  rw [hr]

theorem SameRoster.session (h : SameRoster w w') (t : TriggerRef) :
    (w'.trigger t).session = (w.trigger t).session := by
  rcases h.trigger t with ⟨r, hr⟩
  rw [hr]

theorem SameRoster.queue (h : SameRoster w w') (p : Phase) : queue p w' = queue p w := by
  unfold World.queue
  rw [h.pending, h.fresh]

theorem Roster.same (hr : Roster p w) (h : SameRoster w w') : Roster p w' := by
  have hqueue := h.queue p
  refine ⟨fun t => ?_, fun t ht => ?_, ?_, fun t ht => ?_, fun t ht s hp hs => ?_,
    fun s hs => ?_⟩
  · rcases h.trigger t with ⟨r, htr⟩
    rw [htr]
    exact hr.holds t
  · unfold Created
    rw [h.size]
    exact hr.created t ht
  · rw [hqueue]
    exact hr.nodup
  · rw [h.pending, h.fresh] at ht
    rw [h.state]
    exact hr.listed t ht
  · rw [hqueue] at ht
    rw [h.state] at hp
    rw [h.session] at hs
    unfold isOpen
    rw [h.openSessions]
    exact hr.session t ht s hp hs
  · unfold isOpen at hs
    rw [h.openSessions] at hs
    rw [h.nextSession]
    exact hr.numbered s hs

/-- Triggers move between the lists and the hand, or are dropped. -/
theorem Roster.relist (hr : Roster p w) {pending fresh : List TriggerRef}
    (hqueue : (p'.hand ++ (pending ++ fresh)).Subperm (queue p w))
    (hlisted : ∀ t ∈ pending ++ fresh, (w.trigger t).state = .pending) :
    Roster p' { w with pending := pending, fresh := fresh } := by
  refine ⟨hr.holds, fun t ht => ?_, ?_, hlisted, fun t ht => ?_, hr.numbered⟩
  · exact hr.created_of_queue (hqueue.subset (List.mem_append_left _ ht))
  · rcases hqueue with ⟨l, hperm, hsub⟩
    exact hperm.nodup_iff.mp (hr.nodup.sublist hsub)
  · exact hr.session t (hqueue.subset ht)

/-- A waiting trigger in hand enters a final state. -/
theorem Roster.conclude (hr : Roster p w) (ht : t ∈ p.hand) {state : TriggerState}
    (hstate : state.isTerminal) (c : Captured) : Roster p (w.concluded t state c) := by
  have hself := trigger_concluded_self state c (hr.created t ht)
  have hne : ∀ u, u ≠ t → (w.concluded t state c).trigger u = w.trigger u :=
    fun u hu => trigger_concluded_of_ne state c hu
  refine ⟨fun u => ?_, fun u hu => ?_, hr.nodup, fun u hu => ?_, fun u hu s hp hs => ?_,
    hr.numbered⟩
  · by_cases hut : u = t
    · subst hut
      rw [hself]
      exact (if_neg (isTerminal_iff.mp hstate)).symm
    · rw [hne u hut]
      exact hr.holds u
  · unfold Created
    rw [size_concluded]
    exact hr.created u hu
  · have hut : u ≠ t := by
      rintro rfl
      exact hr.not_listed ht hu
    rw [hne u hut]
    exact hr.listed u hu
  · have hut : u ≠ t := ne_of_waits state c (hr.created t ht) hstate hp
    rw [hne u hut] at hp hs
    exact hr.session u hu s hp hs

/-- Installing a trigger, as far as the roster goes. -/
theorem install_queue (w : World) (c : Captured) (deadline : Option Instant) (isReturn : Bool)
    (span : Span) (p : Phase) :
    queue p (w.install c deadline isReturn span) =
      queue p w ++ if w.letsIn c then [w.nextTrigger] else [] := by
  unfold queue
  rw [install_eq]
  simp only [List.append_assoc]

/-- A trigger is let in only while its session is open. -/
theorem isOpen_of_letsIn (h : w.letsIn c) (hs : (w.frame c.frame).session = some s) :
    w.isOpen s := by
  rw [letsIn, hs, admits, Bool.and_eq_true] at h
  exact h.1

theorem Roster.install (hr : Roster p w) (c : Captured) (deadline : Option Instant)
    (isReturn : Bool) (span : Span) : Roster p (w.install c deadline isReturn span) := by
  have hqueue := install_queue w c deadline isReturn span p
  have htriggers : (w.install c deadline isReturn span).triggers =
      w.triggers.push (w.installed c deadline isReturn span) := by rw [install_eq]
  have hopen : ∀ s, (w.install c deadline isReturn span).isOpen s = w.isOpen s := by
    intro s
    rw [install_eq]
    rfl
  have hself := trigger_push_self htriggers
  have hne := fun u (hu : u ≠ w.nextTrigger) => trigger_push_of_ne htriggers hu
  have hnew : w.nextTrigger ∉ queue p w := fun h =>
    not_created_nextTrigger w (hr.created_of_queue h)
  refine ⟨fun t => ?_, fun t ht => created_push htriggers (hr.created t ht), ?_, fun t ht => ?_,
    fun t ht s hp hs => ?_, fun s hs => ?_⟩
  · by_cases h : t = w.nextTrigger
    · rw [h, hself]
      by_cases hin : w.letsIn c <;> simp [Trigger.Holds, installed, hin]
    · rw [hne t h]
      exact hr.holds t
  · rw [hqueue]
    split
    · refine List.nodup_append.mpr ⟨hr.nodup, List.nodup_singleton _, ?_⟩
      intro a ha b hb e
      rw [List.mem_singleton.mp hb] at e
      exact hnew (e ▸ ha)
    · rw [List.append_nil]
      exact hr.nodup
  · rw [install_eq] at ht
    dsimp only at ht
    rw [← List.append_assoc, List.mem_append] at ht
    rcases ht with ht | ht
    · rw [hne t fun h => hnew (List.mem_append_right _ (h ▸ ht))]
      exact hr.listed t ht
    · split at ht
      · rename_i hin
        rw [List.mem_singleton.mp ht, hself]
        simp [installed, hin]
      · cases ht
  · rw [hopen]
    by_cases h : t = w.nextTrigger
    · rw [h, hself] at hp hs
      refine isOpen_of_letsIn (c := c) ?_ hs
      by_contra hin
      simp [installed, hin] at hp
    · rw [hne t h] at hp hs
      rw [hqueue, List.mem_append] at ht
      rcases ht with ht | ht
      · exact hr.session t ht s hp hs
      · split at ht
        · exact absurd (List.mem_singleton.mp ht) h
        · cases ht
  · rw [hopen] at hs
    have hnext : (w.install c deadline isReturn span).nextSession = w.nextSession := by
      rw [install_eq]
    rw [hnext]
    exact hr.numbered s hs

/-! ## Turns -/

/-- A step of a statement installs a trigger, or does nothing to triggers. -/
theorem Step.install_or (h : Step f w w') :
    SameRoster w w' ∨ ∃ c deadline isReturn span, w' = w.install c deadline isReturn span := by
  cases h with
  | install c deadline isReturn span hf => exact .inr ⟨c, deadline, isReturn, span, rfl⟩
  | _ => exact .inl ⟨fun t => ⟨_, rfl⟩, rfl, rfl, rfl, rfl, rfl⟩

theorem sameRoster_result (w : World) (t : TriggerRef) (v : Option Value) :
    SameRoster w (w.modifyTrigger t fun tr => { tr with result := v }) :=
  ⟨fun u => trigger_modifyTrigger_result w t u v, Array.size_modify, rfl, rfl, rfl, rfl⟩

/-- What a look does, whatever comes of it, apart from its consequences. -/
theorem sameRoster_looked {w₁ : World} (h : (e.eval f).runFrom w = (r, w₁)) (t : TriggerRef)
    (held : Bool) :
    SameRoster w (w₁.looked t held) := by
  rcases eval_leaves h with ⟨heap, slots, rfl⟩
  exact ⟨fun u => ⟨_, rfl⟩, rfl, rfl, rfl, rfl, rfl⟩

/-- Where every waiting trigger has its session open, the end of a batch
cancels nothing. -/
theorem Roster.endBatch_eq (hr : Roster (.pass seen []) w) :
    w.endBatch seen = keepWaiting seen w := by
  unfold endBatch
  rw [foldl_cancelOrphan_eq]
  intro t ht
  exact hr.session t (List.mem_append_left _ (List.mem_append_left _ ht))

theorem Roster.closeSession (hr : Roster .rest w) (s : SessionId) :
    Roster .rest (w.closeSession s) := by
  have htrigger := hr.trigger_closeSession s
  rcases hr.closeSession_lists s with ⟨hpending, hfresh⟩
  have hlists : (w.closeSession s).pending ++ (w.closeSession s).fresh =
      (w.pending ++ w.fresh).filter fun t => (w.trigger t).session != some s := by
    rw [hpending, hfresh, List.filter_append]
  refine ⟨fun t => ?_, (fun t ht => by cases ht), ?_, fun t ht => ?_,
    fun t ht s' hp hs' => ?_, fun s' hs' => ?_⟩
  · rw [htrigger]
    split
    · rfl
    · exact hr.holds t
  · have hnodup : (w.pending ++ w.fresh).Nodup := hr.nodup
    unfold queue
    rw [hlists]
    exact hnodup.filter _
  · rw [hlists, List.mem_filter, bne_iff_ne] at ht
    rw [htrigger, if_neg fun h => ht.2 h.2.1]
    exact hr.listed t ht.1
  · unfold queue at ht
    rw [hlists, Phase.hand, List.nil_append, List.mem_filter, bne_iff_ne] at ht
    rw [htrigger, if_neg fun h => ht.2 h.2.1] at hp hs'
    refine isOpen_closeSession.mpr ⟨hr.session t ht.1 s' hp hs', ?_⟩
    rintro rfl
    exact ht.2 hs'
  · rw [(closeSession_fields s w).2.1]
    exact hr.numbered s' (isOpen_closeSession.mp hs').1

theorem trigger_cancelAll (w : World) (u : TriggerRef) :
    w.cancelAll.trigger u =
      if u ∈ w.pending ++ w.fresh ∧ (w.trigger u).state = .pending then
        { w.trigger u with captured := none, state := .cancelled }
      else w.trigger u :=
  trigger_cancelEach { w with pending := [], fresh := [] } (w.pending ++ w.fresh) u

theorem cancelAll_eq (w : World) :
    ∃ trs stats, w.cancelAll =
        { w with pending := [], fresh := [], triggers := trs, stats := stats } ∧
      trs.size = w.triggers.size :=
  cancelEach_eq { w with pending := [], fresh := [] } (w.pending ++ w.fresh)

theorem Roster.cancelAll (hr : Roster .rest w) : Roster .rest w.cancelAll := by
  have htrigger := trigger_cancelAll w
  rcases cancelAll_eq w with ⟨trs, stats, heq, -⟩
  rw [heq] at htrigger ⊢
  refine ⟨fun t => ?_, (fun t ht => by cases ht), List.nodup_nil, (fun t ht => by cases ht),
    (fun t ht => by cases ht), hr.numbered⟩
  rw [htrigger]
  split
  · rfl
  · exact hr.holds t

theorem isOpen_newSession : w.newSession.2.isOpen s ↔ s = w.nextSession ∨ w.isOpen s := by
  simp [isOpen, World.newSession]

theorem Roster.newSession (hr : Roster .rest w) : Roster .rest w.newSession.2 := by
  refine ⟨hr.holds, hr.created, hr.nodup, hr.listed, fun t ht s hp hs => ?_, fun s hs => ?_⟩
  · exact isOpen_newSession.mpr (.inr (hr.session t ht s hp hs))
  · rcases isOpen_newSession.mp hs with hnew | hold
    · rw [hnew]
      exact Nat.lt_succ_self _
    · exact Nat.lt_succ_of_lt (hr.numbered s hold)

/-- What a turn takes in hand at the end of a batch was registered during it,
and what it lists was seen in it. -/
theorem subperm_keepWaiting (seen : List TriggerRef) (w : World) :
    (w.fresh ++ ((keepWaiting seen w).pending ++ [])).Subperm (queue (.pass seen []) w) := by
  have hsub : (w.fresh ++ ((keepWaiting seen w).pending ++ [])).Sublist
      (w.fresh ++ (w.pending ++ seen)) := by
    rw [List.append_nil]
    exact (List.filter_sublist.append_left w.pending).append_left w.fresh
  have hperm : (w.fresh ++ (w.pending ++ seen)).Perm (queue (.pass seen []) w) := by
    have hqueue : queue (.pass seen []) w = seen ++ w.pending ++ w.fresh := by
      simp [queue, Phase.hand]
    rw [hqueue]
    exact List.perm_append_comm.trans (List.perm_append_comm.append_right w.fresh)
  exact hsub.subperm.trans hperm.subperm

theorem subperm_openExpiry (now : Instant) (w : World) :
    (w.pending.filter (w.isExpired now) ++
      (w.pending.filter (fun t => !w.isExpired now t) ++ w.fresh)).Subperm (queue .rest w) := by
  rw [← List.append_assoc]
  exact ((List.filter_append_perm (w.isExpired now) w.pending).append_right w.fresh).subperm

theorem Roster.of_hand (hr : Roster p w) (hhand : p'.hand.Sublist p.hand) : Roster p' w :=
  hr.relist (hhand.append_right _).subperm hr.listed

theorem queue_next (seen todo : List TriggerRef) (t : TriggerRef) (w : World) :
    queue (.pass (seen ++ [t]) todo) w = queue (.pass seen (t :: todo)) w := by
  simp [queue, Phase.hand]

/-- The trigger looked at stays in hand. -/
theorem Roster.next {todo : List TriggerRef} (hr : Roster (.pass seen (t :: todo)) w) :
    Roster (.pass (seen ++ [t]) todo) w := by
  refine hr.of_hand ?_
  have hhand : (Phase.pass (seen ++ [t]) todo).hand = (Phase.pass seen (t :: todo)).hand :=
    List.append_assoc seen [t] todo
  rw [hhand]

/-- A turn keeps the roster. -/
theorem Turn.roster (hr : Roster p w) (h : Turn op done (p, w) (p', w')) : Roster p' w' := by
  cases h with
  | step hstep =>
    rcases hstep.install_or with hsame | ⟨c, deadline, isReturn, span, rfl⟩
    · exact hr.same hsame
    · exact hr.install c deadline isReturn span
  | result _ _ u v => exact hr.same (sameRoster_result w u v)
  | count | addFrame | clock => exact hr.same ⟨fun t => ⟨_, rfl⟩, rfl, rfl, rfl, rfl, rfl⟩
  | newSession => exact hr.newSession
  | closeSession _ s => exact hr.closeSession s
  | cancelAll => exact hr.cancelAll
  | openPass =>
    have hqueue : (w.pending ++ w.fresh) ++ ([] ++ []) = queue .rest w := List.append_nil _
    exact hr.relist (hqueue ▸ .refl _) fun t ht => by cases ht
  | skip => exact hr.next
  | @unmet seen todo u c _ w₁ r hpend hc heval hunmet =>
    exact hr.next.same (sameRoster_looked heval u false)
  | @fires seen todo u c _ w₁ v hpend hc heval hv =>
    have hmem : u ∈ (Phase.pass (seen ++ [u]) todo).hand :=
      List.mem_append_left _ (List.mem_append_right _ List.mem_cons_self)
    exact (hr.next.same (sameRoster_looked heval u true)).conclude hmem rfl c
  | endBatch seen =>
    rw [hr.endBatch_eq]
    refine hr.relist (subperm_keepWaiting seen w) fun t ht => ?_
    rw [List.append_nil] at ht
    rcases List.mem_append.mp ht with hold | hkept
    · exact hr.listed t (List.mem_append_left _ hold)
    · exact waits_iff.mp (List.mem_filter.mp hkept).2
  | openExpiry now =>
    refine hr.relist (subperm_openExpiry now w) fun t ht => hr.listed t ?_
    exact (List.filter_sublist.append_right w.fresh).subset ht
  | ignore now todo u => exact hr.of_hand (List.sublist_cons_self u todo)
  | timesOut now todo hpend hc =>
    exact (hr.conclude List.mem_cons_self rfl _).of_hand (List.sublist_cons_self _ todo)
  | prune now =>
    have hlists : (w.pending.filter (fun t => !(w.trigger t).state.isTerminal) ++
        w.fresh.filter fun t => !(w.trigger t).state.isTerminal).Sublist (w.pending ++ w.fresh) :=
      List.filter_sublist.append List.filter_sublist
    exact hr.relist hlists.subperm fun t ht => hr.listed t (hlists.subset ht)
  | drop => exact hr.of_hand (List.nil_sublist _)

/-- What is in hand or listed after a turn was so before, or is new and belongs
to no closed session. -/
theorem Turn.queue (hr : Roster p w) (h : Turn op done (p, w) (p', w')) (ht : t ∈ queue p' w') :
    t ∈ queue p w ∨ ¬ w.Created t ∧ ∀ s, (w'.trigger t).session = some s → w.isOpen s := by
  cases h with
  | step hstep =>
    rcases hstep.install_or with hsame | ⟨c, deadline, isReturn, span, rfl⟩
    · rw [hsame.queue] at ht
      exact .inl ht
    · rw [install_queue, List.mem_append] at ht
      rcases ht with hold | hnew
      · exact .inl hold
      · right
        split at hnew
        · rename_i hin
          rw [List.mem_singleton] at hnew
          subst hnew
          refine ⟨not_created_nextTrigger w, fun s hs => isOpen_of_letsIn hin ?_⟩
          rwa [trigger_push_self (by rw [install_eq])] at hs
        · cases hnew
  | result | count | addFrame | clock | newSession => exact .inl ht
  | closeSession _ s =>
    obtain ⟨-, -, -, hpending, hfresh⟩ := closeSession_fields s w
    exact .inl ((hpending.append hfresh).subset ht)
  | cancelAll =>
    rcases cancelAll_eq w with ⟨trs, stats, heq, -⟩
    rw [heq] at ht
    cases ht
  | openPass =>
    left
    simpa [World.queue, Phase.hand] using ht
  | skip seen todo u =>
    rw [queue_next] at ht
    exact .inl ht
  | @unmet seen todo u c _ w₁ r hpend hc heval hunmet =>
    rw [queue_next, (sameRoster_looked heval u false).queue] at ht
    exact .inl ht
  | @fires seen todo u c _ w₁ v hpend hc heval hv =>
    have hlook : t ∈ World.queue (.pass (seen ++ [u]) todo) (w₁.looked u true) := ht
    rw [queue_next, (sameRoster_looked heval u true).queue] at hlook
    exact .inl hlook
  | endBatch seen =>
    rw [hr.endBatch_eq] at ht
    exact .inl ((subperm_keepWaiting seen w).subset ht)
  | openExpiry now => exact .inl ((subperm_openExpiry now w).subset ht)
  | ignore now todo u => exact .inl (List.mem_cons_of_mem u ht)
  | timesOut now todo hpend hc => exact .inl (List.mem_cons_of_mem _ ht)
  | prune now =>
    have hlists : w.prune.pending ++ w.prune.fresh ⊆ w.pending ++ w.fresh :=
      (List.filter_sublist.append List.filter_sublist).subset
    exact .inl (hlists ht)
  | drop => exact .inl (List.mem_append_right _ ht)

/-- Only a new session is opened, and its number was never given before. -/
theorem Turn.sessions (hr : Roster p w) (h : Turn op done (p, w) (p', w')) :
    w.nextSession ≤ w'.nextSession ∧ ∀ s, w'.isOpen s → w.isOpen s ∨ s = w.nextSession := by
  cases h with
  | step hstep =>
    rcases hstep.install_or with hsame | ⟨c, deadline, isReturn, span, rfl⟩
    · rw [hsame.nextSession]
      refine ⟨Nat.le_refl _, fun s hs => .inl ?_⟩
      unfold isOpen at hs ⊢
      rwa [hsame.openSessions] at hs
    · rw [install_eq]
      exact ⟨Nat.le_refl _, fun s hs => .inl hs⟩
  | newSession => exact ⟨Nat.le_succ _, fun s hs => (isOpen_newSession.mp hs).symm⟩
  | closeSession _ s =>
    refine ⟨?_, fun s' hs' => .inl (isOpen_closeSession.mp hs').1⟩
    exact Nat.le_of_eq (closeSession_fields s w).2.1.symm
  | cancelAll =>
    rcases cancelAll_eq w with ⟨trs, stats, heq, -⟩
    rw [heq]
    exact ⟨Nat.le_refl _, fun s hs => .inl hs⟩
  | @unmet seen todo u c _ w₁ r hpend hc heval hunmet =>
    rcases eval_leaves heval with ⟨heap, slots, rfl⟩
    exact ⟨Nat.le_refl _, fun s hs => .inl hs⟩
  | @fires seen todo u c _ w₁ v hpend hc heval hv =>
    rcases eval_leaves heval with ⟨heap, slots, rfl⟩
    exact ⟨Nat.le_refl _, fun s hs => .inl hs⟩
  | endBatch seen =>
    rw [hr.endBatch_eq]
    exact ⟨Nat.le_refl _, fun s hs => .inl hs⟩
  | _ => exact ⟨Nat.le_refl _, fun s hs => .inl hs⟩

/-! ## Histories -/

/-- What every turn keeps holds after any number of turns. -/
theorem Turns.invariant
    (hturn : ∀ ⦃p w p' w'⦄, Roster p w → I p w → Turn op done (p, w) (p', w') → I p' w')
    (hr : Roster p w) (hi : I p w) (h : Turns op done (p, w) (p', w')) :
    Roster p' w' ∧ I p' w' := by
  have hall : ∀ b, Turns op done (p, w) b → Roster b.1 b.2 ∧ I b.1 b.2 := by
    intro b hb
    induction hb with
    | refl => exact ⟨hr, hi⟩
    | tail _ hlast ih => exact ⟨hlast.roster ih.1, hturn ih.1 ih.2 hlast⟩
  exact hall (p', w') h

theorem Turns.roster (hr : Roster p w) (h : Turns op done (p, w) (p', w')) : Roster p' w' := by
  have hend := h.invariant (I := fun _ _ => True) (fun _ _ _ _ _ _ _ => trivial) hr trivial
  exact hend.1

/-- A pass starts with all that waits. -/
theorem Roster.openPass (hr : Roster .rest w) :
    Roster (.pass [] (w.pending ++ w.fresh)) { w with pending := [], fresh := [] } := by
  have hturn : Turn .checkAll True (.rest, w) _ := .openPass w rfl
  exact hturn.roster hr

/-- A batch is done: those that still wait are listed again, and what was registered
during it becomes the next one. -/
theorem Roster.batch {batch : List TriggerRef} {fuel : Nat} (hr : Roster (.pass [] batch) w)
    (h : (checkEach fuel batch).runFrom w = (.ok (), w')) :
    w'.endBatch batch = keepWaiting batch w' ∧ (∀ t ∈ w'.fresh, (w'.trigger t).state = .pending) ∧
      Roster (.pass [] w'.fresh) { keepWaiting batch w' with fresh := [] } := by
  have heach : Arrives .checkAll True (.pass [] batch, w) (.pass batch []) _ :=
    h ▸ checkEach_turns [] batch
  have hr₁ := heach.ok.roster hr
  have hend : Turn .checkAll True (.pass batch [], w') _ := .endBatch batch w'
  have hr₂ := hend.roster hr₁
  rw [hr₁.endBatch_eq] at hr₂
  exact ⟨hr₁.endBatch_eq, fun t ht => hr₁.listed t (List.mem_append_right _ ht), hr₂⟩

/-- What every turn keeps holds between operations, whatever they end in. -/
theorem Ever.invariant
    (hturn : ∀ ⦃op done p w p' w'⦄, Roster p w → I p w → Turn op done (p, w) (p', w') → I p' w')
    (hr : Roster .rest w) (hi : I .rest w) (h : Ever w w') : Roster .rest w' ∧ I .rest w' := by
  induction h with
  | refl => exact ⟨hr, hi⟩
  | tail _ hlast ih =>
    rcases hlast with ⟨op, fuel, rfl⟩
    exact (perform_turns op fuel _).invariant (fun _ _ _ _ hr hi => hturn hr hi) ih.1 ih.2

theorem Possible.roster (hw : Possible w) : Roster .rest w := by
  rcases hw with ⟨now, limits, h⟩
  have hend := h.invariant (I := fun _ _ => True) (fun _ _ _ _ _ _ _ _ _ => trivial)
    (.start now limits) trivial
  exact hend.1

end World

end Vigil
