import Vigil.Proofs.Exec.Fuel
import Vigil.Proofs.Exec.Guarantee
import Vigil.Proofs.Trigger.Parallel
import Vigil.Script
import Mathlib.Data.List.MinMax

/-!
# Vigil.Proofs.Trigger.Generations — a pass ends

A body may register any number of triggers, and the pass that runs it looks at
them too. What goes down is not their number but how deep `when`s are nested in
what they run: a trigger registered by a body comes from a `when` inside of it,
so its own body has at least one level less (`Stmt.exec_nests`). The batches of
a pass are the generations of triggers, and there is one more of them at most
than there are levels at its start.

* `World.InPass` — the points of a pass, with the batch it is in.
* `World.InPass.descends` — the levels left at each point.
* `World.pass_ends_within_depth` — when every look ends, so does the pass.
-/

namespace Vigil

/-! ## Nested `when`s -/

namespace Stmt

mutual

/-- How deep `when`s are nested, counted into the bodies that run when their
conditions hold. -/
def whenDepth : Stmt → Nat
  | .list _ body | .bodyList _ body => whenDepthList body
  | .cond _ _ thenBody elseBody => max thenBody.whenDepth elseBody.whenDepth
  | .while _ _ body | .for _ _ _ _ body => body.whenDepth
  | .switch _ _ cases _ => whenDepthCases cases
  | .when _ _ body _ _ _ => body.whenDepth + 1
  | _ => 0

def whenDepthList : List Stmt → Nat
  | [] => 0
  | s :: rest => max s.whenDepth (whenDepthList rest)

def whenDepthCases : List Case → Nat
  | [] => 0
  | .mk _ body _ :: rest => max body.whenDepth (whenDepthCases rest)

end

theorem whenDepth_le_list {s : Stmt} {ss : List Stmt} (h : s ∈ ss) :
    s.whenDepth ≤ whenDepthList ss := by
  induction ss with
  | nil => cases h
  | cons t rest ih =>
    rw [whenDepthList]
    rcases List.mem_cons.mp h with rfl | h
    · exact Nat.le_max_left _ _
    · exact Nat.le_trans (ih h) (Nat.le_max_right _ _)

theorem whenDepth_le_cases {c : Case} {cs : List Case} (h : c ∈ cs) :
    c.body.whenDepth ≤ whenDepthCases cs := by
  induction cs with
  | nil => cases h
  | cons d rest ih =>
    obtain ⟨labels, body, span⟩ := d
    rw [whenDepthCases]
    rcases List.mem_cons.mp h with rfl | h
    · exact Nat.le_max_left _ _
    · exact Nat.le_trans (ih h) (Nat.le_max_right _ _)

theorem whenDepth_le_of_mem_parts {s t : Stmt} (h : t ∈ s.parts) : t.whenDepth ≤ s.whenDepth := by
  cases s with
  | list i body => exact whenDepth_le_list h
  | bodyList i body => exact whenDepth_le_list h
  | cond i test thenBody elseBody =>
    rw [whenDepth]
    rcases List.mem_cons.mp h with rfl | h
    · exact Nat.le_max_left _ _
    · rw [List.mem_singleton.mp h]
      exact Nat.le_max_right _ _
  | «while» i test body =>
    rw [List.mem_singleton.mp h]
    exact Nat.le_refl _
  | «for» i vars valueVar target body =>
    rw [List.mem_singleton.mp h]
    exact Nat.le_refl _
  | switch i selector cases dispatch =>
    obtain ⟨c, hc, rfl⟩ := List.mem_map.mp h
    exact whenDepth_le_cases hc
  | _ => cases h

end Stmt

namespace World

/-- How deep `when`s are nested in the body a trigger holds. -/
def bodyDepth (w : World) (t : TriggerRef) : Nat :=
  ((w.trigger t).captured.map fun c => c.body.whenDepth).getD 0

/-- How deep `when`s are nested in the bodies of all that wait. -/
def waitingDepth (w : World) : Nat := ((w.pending ++ w.fresh).map w.bodyDepth).foldr max 0

theorem bodyDepth_le_waitingDepth {w : World} {t : TriggerRef} (h : t ∈ w.pending ++ w.fresh) :
    w.bodyDepth t ≤ w.waitingDepth :=
  List.le_max_of_le' 0 (List.mem_map_of_mem h) (Nat.le_refl _)

/-! ## What executions register -/

/-- Whatever a trigger newly holds, and whatever is newly registered, has less
than `k` levels. -/
structure Nests (k : Nat) (w w' : World) : Prop where
  depth : ∀ t, w'.bodyDepth t = w.bodyDepth t ∨ w'.bodyDepth t < k
  fresh : ∀ t ∈ w'.fresh, t ∈ w.fresh ∨ w'.bodyDepth t < k

theorem bodyDepth_congr {w w' : World} {t : TriggerRef}
    (h : (w'.trigger t).captured = (w.trigger t).captured) : w'.bodyDepth t = w.bodyDepth t := by
  unfold bodyDepth
  rw [h]

variable {k : Nat} {w w' : World} {t : TriggerRef}

theorem Nests.of_captured (htriggers : ∀ t, (w'.trigger t).captured = (w.trigger t).captured)
    (hfresh : w'.fresh = w.fresh) : Nests k w w' where
  depth t := .inl (bodyDepth_congr (htriggers t))
  fresh _ ht := .inl (hfresh ▸ ht)

theorem Nests.note (h : Nests k w w') (e : Entry) :
    Nests k w { w' with journal := e :: w'.journal } :=
  ⟨h.depth, h.fresh⟩

instance : IsPreorder World (Nests k) where
  refl _ := .of_captured (fun _ => rfl) rfl
  trans w₁ w₂ w₃ h h' := by
    refine ⟨fun t => ?_, fun t ht => ?_⟩
    · rcases h'.depth t with h₃ | h₃
      · rw [h₃]
        exact h.depth t
      · exact .inr h₃
    · rcases h'.fresh t ht with hold | hnew
      · rcases h.fresh t hold with hold | hnew
        · exact .inl hold
        · -- registered first, and then perhaps replaced
          rcases h'.depth t with h₃ | h₃
          · exact .inr (h₃ ▸ hnew)
          · exact .inr h₃
      · exact .inr hnew

/-- A `when` registers a trigger for the body it stands before. -/
theorem nests_install {c : Captured} (hk : c.body.whenDepth < k) (deadline : Option Instant)
    (isReturn : Bool) (span : Span) (w : World) :
    Nests k w (w.install c deadline isReturn span) := by
  have hpush : (w.install c deadline isReturn span).triggers =
      w.triggers.push (w.installed c deadline isReturn span) := by rw [install_eq]
  have hnew : (w.install c deadline isReturn span).bodyDepth w.nextTrigger < k := by
    unfold bodyDepth
    rw [trigger_push_self hpush, installed]
    dsimp only
    split
    · exact hk
    · exact Nat.lt_of_le_of_lt (Nat.zero_le _) hk
  refine ⟨fun t => ?_, fun t ht => ?_⟩
  · by_cases ht : t = w.nextTrigger
    · rw [ht]
      exact .inr hnew
    · exact .inl (bodyDepth_congr (by rw [trigger_push_of_ne hpush ht]))
  · rw [install_eq] at ht
    rcases List.mem_append.mp ht with ht | ht
    · exact .inl ht
    · -- the only registration is that of the new trigger
      have hself : t = w.nextTrigger := by
        split at ht
        · exact List.mem_singleton.mp ht
        · cases ht
      rw [hself]
      exact .inr hnew

end World

/-- Whatever a statement registers has fewer levels than it. -/
theorem Stmt.exec_nests {k fuel : Nat} {f : FrameRef} {s : Stmt} (hs : s.whenDepth ≤ k) :
    Exec.Respects (World.Nests k) (s.exec fuel f) := by
  have haside : ∀ w w' : World, w.Aside w' → World.Nests k w w' := by
    rintro w _ ⟨_, _, _, _, rfl⟩
    exact .of_captured (fun _ => rfl) rfl
  have g : Guarantee (fun s => s.whenDepth ≤ k) fuel f (World.Nests k) := by
    refine .of_aside haside (fun s hs t ht => ?_) (fun s _ _ w => ?_) fun s hs htag => ?_
    · exact Nat.le_trans (whenDepth_le_of_mem_parts ht) hs
    · exact .of_captured (fun _ => rfl) rfl
    · cases s with
      | «when» i test body timeout timeoutBody isReturn =>
        rw [exec_eq]
        refine .bind (.modify fun w => .of_captured (fun _ => rfl) rfl) fun _ => ?_
        refine .bind (.bind ?_ fun d => .modify ?_) fun _ => .pure _
        · exact .of_edits (deadline_edits timeout) fun w w' h => haside w w' h.aside
        · exact World.nests_install hs d isReturn i.span
      | _ => cases htag
  exact g.exec hs

namespace World

variable {k : Nat} {w w' : World} {t : TriggerRef} {fuel rounds : Nat}

theorem holds_nests (c : Captured) : Exec.Respects (Nests k) (holds c) := by
  refine .of_edits (holds_edits c) fun w w' h => ?_
  obtain ⟨_, _, _, _, rfl⟩ := h.aside
  exact .of_captured (fun _ => rfl) rfl

/-- Nothing clerical makes a body deeper. -/
theorem Clerical.bodyDepth_le {g : World → World} (hg : Clerical g) (w : World) (t : TriggerRef) :
    (g w).bodyDepth t ≤ w.bodyDepth t := by
  unfold bodyDepth
  cases hc : ((g w).trigger t).captured with
  | none => exact Nat.zero_le _
  | some c => rw [hg.held w t c hc]

/-- Leaving the pending state drops what the trigger held. -/
theorem nests_leave (hk : w.bodyDepth t ≤ k) (state : TriggerState) :
    Nests k w (w.leave t state) := by
  refine ⟨fun u => ?_, fun u hu => .inl hu⟩
  by_cases hu : u = t
  · have hle := (Clerical.leave t state).bodyDepth_le w t
    subst hu
    omega
  · exact .inl (bodyDepth_congr (by rw [leave, trigger_modifyTrigger_of_ne hu]))

theorem runBody_nests {f : FrameRef} {body : Stmt} (hk : body.whenDepth ≤ k)
    (h : (runBody fuel t f body).runFrom w = (.ok (), w')) : Nests k w w' := by
  obtain ⟨r, w₁, hx, hback, hkept⟩ := runBody_apart h
  have hbody : Nests k w w₁ := (Stmt.exec_nests hk).of_eq hx hback
  rcases hkept with rfl | ⟨v, rfl⟩
  · exact hbody
  · refine trans_of (Nests k) hbody ?_
    refine ⟨fun u => .inl (bodyDepth_congr ?_), fun _ hu => .inl hu⟩
    obtain ⟨r', hr⟩ := trigger_modifyTrigger_result w₁ t u v
    rw [hr]

/-- Whatever a look registers has fewer levels than the body of the trigger
looked at. -/
theorem check_nests {state : TriggerState} (hk : w.bodyDepth t ≤ k)
    (h : (check fuel t).runFrom w = (.ok state, w')) : Nests k w w' := by
  obtain ⟨-, rfl | ⟨c, held, w₁, -, hc, hholds, h⟩⟩ := check_apart h
  · exact refl_of (Nests k) w'
  · have hbody : c.body.whenDepth ≤ k := by
      unfold bodyDepth at hk
      rw [hc] at hk
      exact hk
    have hlook := Nests.note ((holds_nests (k := k) c).of_eq hholds rfl) (.look t held)
    cases held
    · cases h
      exact hlook
    · rw [if_pos rfl, runFrom_settle] at h
      -- evaluating the condition changed nothing the trigger holds, or made it shallower
      have hk₁ : ({ w₁ with journal := .look t true :: w₁.journal } : World).bodyDepth t ≤ k := by
        rcases hlook.depth t with h₁ | h₁ <;> omega
      have hleave := trans_of (Nests k) hlook (nests_leave hk₁ .fired)
      change (runBody fuel t c.frame c.body).runFrom _ = (.ok (), w') at h
      exact trans_of (Nests k) (hleave.note (.body t .fired c.body)) (runBody_nests hbody h)

/-! ## The points of a pass -/

/-- The points of a pass that starts in `start`: it is in its batch number `n`,
and of that batch `rest` is still to be looked at. Each look may take as many
rounds of loops as it needs. -/
inductive InPass (start : World) : (n : Nat) → (batch rest : List TriggerRef) → World → Prop where
  | begin : InPass start 0 (start.pending ++ start.fresh) (start.pending ++ start.fresh)
      { start with pending := [], fresh := [] }
  | look {n batch rest t w w' fuel state} (h : InPass start n batch (t :: rest) w)
      (hcheck : (check fuel t).runFrom w = (.ok state, w')) :
      InPass start n batch rest (w'.counted state)
  | next {n batch w} (h : InPass start n batch [] w)
      (hne : batch ≠ []) :
      InPass start (n + 1) (w.endBatch batch).fresh (w.endBatch batch).fresh
        { w.endBatch batch with fresh := [] }

theorem InPass.rest_subset {start w : World} {n : Nat} {batch rest : List TriggerRef}
    (h : InPass start n batch rest w) : rest ⊆ batch := by
  induction h with
  | begin => exact List.Subset.refl _
  | look _ _ ih => exact fun u hu => ih (List.mem_cons_of_mem _ hu)
  | next _ _ _ => exact List.Subset.refl _

theorem counted_eq (state : TriggerState) (w : World) :
    ∃ stats, w.counted state = { w with stats := stats } := by
  unfold counted
  split
  · exact ⟨_, rfl⟩
  · exact ⟨w.stats, rfl⟩

theorem fresh_endBatch (batch : List TriggerRef) (w : World) :
    (w.endBatch batch).fresh = w.fresh := by
  change (batch.foldl cancelOrphan w).fresh = w.fresh
  induction batch generalizing w with
  | nil => rfl
  | cons t ts ih =>
    obtain ⟨trs, hcancel, -⟩ := w.cancel_eq t
    rw [List.foldl_cons, ih, cancelOrphan_eq_ite, hcancel]
    split <;> rfl

/-- In batch number `n` of a pass with `d` levels: how many levels those still
to be looked at have left, and those registered for the next batch. -/
structure Descends (d n : Nat) (batch rest : List TriggerRef) (w : World) : Prop where
  batch : batch ≠ [] → n ≤ d
  rest : ∀ t ∈ rest, n + w.bodyDepth t ≤ d
  fresh : ∀ t ∈ w.fresh, n + 1 + w.bodyDepth t ≤ d

variable {start : World} {n : Nat} {batch rest : List TriggerRef}

/-- Every batch has one level less than the one before. -/
theorem InPass.descends (h : InPass start n batch rest w) :
    Descends start.waitingDepth n batch rest w := by
  induction h with
  | begin =>
    refine ⟨fun _ => Nat.zero_le _, fun t ht => ?_, fun t ht => by cases ht⟩
    rw [Nat.zero_add]
    exact bodyDepth_le_waitingDepth ht
  | @look n batch rest t w w' fuel state h hcheck ih =>
    have hk : w.bodyDepth t ≤ start.waitingDepth - n := by
      have := ih.rest t List.mem_cons_self
      omega
    have hnests := check_nests hk hcheck
    obtain ⟨stats, hstats⟩ := w'.counted_eq state
    rw [hstats]
    refine ⟨ih.batch, fun u hu => ?_, fun u hu => ?_⟩
    · have hu' := ih.rest u (List.mem_cons_of_mem t hu)
      change n + w'.bodyDepth u ≤ _
      rcases hnests.depth u with hd | hd <;> omega
    · change n + 1 + w'.bodyDepth u ≤ _
      rcases hnests.fresh u hu with hold | hnew
      · have hu' := ih.fresh u hold
        rcases hnests.depth u with hd | hd <;> omega
      · omega
  | @next n batch w h hne ih =>
    have hfresh : ∀ u ∈ (w.endBatch batch).fresh,
        n + 1 + (w.endBatch batch).bodyDepth u ≤ start.waitingDepth := by
      intro u hu
      have hdepth := (Clerical.endBatch batch).bodyDepth_le w u
      rw [fresh_endBatch] at hu
      have := ih.fresh u hu
      omega
    refine ⟨fun hnext => ?_, hfresh, fun u hu => by cases hu⟩
    obtain ⟨u, hu⟩ := List.exists_mem_of_ne_nil _ hnext
    have := hfresh u hu
    omega

/-! ## Ending -/

/-- The looks still due in a batch: with enough fuel they end, and the pass is
at the end of its batch unless one of them was an abort. -/
theorem InPass.checkEach_ends
    (hlooks : ∀ n batch t rest w, InPass start n batch (t :: rest) w →
      ∃ fuel, Exec.ended ((check fuel t).runFrom w).1)
    (h : InPass start n batch rest w) :
    ∃ enough r w', (∀ fuel ≥ enough, (checkEach fuel rest).runFrom w = (r, w')) ∧
      Exec.ended r ∧ (r = .ok () → InPass start n batch [] w') := by
  induction rest generalizing w with
  | nil => exact ⟨0, .ok (), w, fun _ _ => rfl, rfl, fun _ => h⟩
  | cons t rest ih =>
    obtain ⟨first, hended⟩ := hlooks n batch t rest w h
    have hcheck : ∀ fuel ≥ first, (check fuel t).runFrom w = (check first t).runFrom w :=
      fun fuel hfuel => check_agrees hfuel t w hended
    rcases hx : (check first t).runFrom w with ⟨s | state, w₁⟩
    · refine ⟨first, .error s, w₁, fun fuel hfuel => ?_, ?_, fun hok => by cases hok⟩
      · rw [runFrom_checkEach_cons, hcheck fuel hfuel, hx]
      · rw [hx] at hended
        revert hended
        cases s <;> exact fun hended => hended
    · obtain ⟨enough, r, w', hrest, hr, hend⟩ := ih (h.look hx)
      refine ⟨max first enough, r, w', fun fuel hfuel => ?_, hr, hend⟩
      rw [runFrom_checkEach_cons, hcheck fuel (Nat.le_trans (Nat.le_max_left _ _) hfuel), hx]
      exact hrest fuel (Nat.le_trans (Nat.le_max_right _ _) hfuel)

/-- From the start of a batch on as many batches suffice as there are levels
left, and one more. -/
theorem InPass.checkBatches_ends
    (hlooks : ∀ n batch t rest w, InPass start n batch (t :: rest) w →
      ∃ fuel, Exec.ended ((check fuel t).runFrom w).1)
    (h : InPass start n batch batch w) :
    ∃ enough, ∀ fuel ≥ enough, ∀ rounds, 1 + start.waitingDepth ≤ n + rounds →
      Exec.ended ((checkBatches fuel rounds batch).runFrom w).1 := by
  -- on the levels left
  induction hleft : start.waitingDepth + 1 - n generalizing n batch w with
  | zero =>
    refine ⟨0, fun fuel _ rounds _ => ?_⟩
    by_cases hne : batch = []
    · subst hne
      rw [checkBatches]
      rfl
    · have := h.descends.batch hne
      omega
  | succ left ih =>
    by_cases hne : batch = []
    · subst hne
      refine ⟨0, fun fuel _ rounds _ => ?_⟩
      rw [checkBatches]
      rfl
    · obtain ⟨each, r, w₁, heach, hr, hend⟩ := h.checkEach_ends hlooks
      rcases r with s | _
      · refine ⟨each, fun fuel hfuel rounds hrounds => ?_⟩
        obtain ⟨m, rfl⟩ := Nat.exists_eq_add_one_of_ne_zero (n := rounds) (by
          have := h.descends.batch hne
          omega)
        rw [runFrom_checkBatches_succ fuel m hne, heach fuel hfuel]
        revert hr
        cases s <;> exact fun hr => hr
      · obtain ⟨more, hmore⟩ := ih ((hend rfl).next hne) (by omega)
        refine ⟨max each more, fun fuel hfuel rounds hrounds => ?_⟩
        obtain ⟨m, rfl⟩ := Nat.exists_eq_add_one_of_ne_zero (n := rounds) (by
          have := h.descends.batch hne
          omega)
        rw [runFrom_checkBatches_succ fuel m hne,
          heach fuel (Nat.le_trans (Nat.le_max_left _ _) hfuel)]
        exact hmore fuel (Nat.le_trans (Nat.le_max_right _ _) hfuel) m (by omega)

/-! ## Looks of a pass that ended -/

/-- What a pass does from a point in a batch on, with `rounds` batches to go. -/
def restOfPass (fuel rounds : Nat) (batch rest : List TriggerRef) (w : World) :
    Except Stop Unit × World :=
  match (checkEach fuel rest).runFrom w with
  | (.ok (), w₁) => (checkBatches fuel rounds (w₁.endBatch batch).fresh).runFrom
      { w₁.endBatch batch with fresh := [] }
  | (.error s, w₁) => (.error s, w₁)

theorem restOfPass_cons (fuel rounds : Nat) (batch rest : List TriggerRef) (t : TriggerRef)
    (w : World) :
    restOfPass fuel rounds batch (t :: rest) w = match (check fuel t).runFrom w with
      | (.ok state, w₁) => restOfPass fuel rounds batch rest (w₁.counted state)
      | (.error s, w₁) => (.error s, w₁) := by
  unfold restOfPass
  rw [runFrom_checkEach_cons]
  rcases (check fuel t).runFrom w with ⟨s | state, w₁⟩ <;> rfl

/-- Batches that ended had a round for the first of them. -/
theorem exists_restOfPass (hne : batch ≠ [])
    (hend : Exec.ended ((checkBatches fuel rounds batch).runFrom w).1) :
    ∃ left, Exec.ended (restOfPass fuel left batch batch w).1 := by
  cases rounds with
  | zero =>
    obtain ⟨t, ts, rfl⟩ := List.exists_cons_of_ne_nil hne
    cases hend
  | succ left =>
    rw [runFrom_checkBatches_succ fuel left hne] at hend
    exact ⟨left, hend⟩

/-- A look that ended with some fuel is the one a pass makes that ended. -/
theorem check_eq_of_ended {fuel' : Nat} (h : Exec.ended ((check fuel t).runFrom w).1)
    (h' : Exec.ended ((check fuel' t).runFrom w).1) :
    (check fuel t).runFrom w = (check fuel' t).runFrom w := by
  rcases Nat.le_total fuel fuel' with hle | hle
  · exact (check_agrees hle t w h).symm
  · exact check_agrees hle t w h'

theorem ended_check_of_restOfPass (h : Exec.ended (restOfPass fuel rounds batch (t :: rest) w).1) :
    Exec.ended ((check fuel t).runFrom w).1 := by
  rw [restOfPass_cons] at h
  rcases hx : (check fuel t).runFrom w with ⟨s | state, w₁⟩
  · rw [hx] at h
    revert h
    cases s <;> exact fun h => h
  · rfl

/-- A pass that ended got past each of its points. -/
theorem InPass.rest_ended
    (hend : Exec.ended ((checkBatches fuel rounds (start.pending ++ start.fresh)).runFrom
      { start with pending := [], fresh := [] }).1)
    (h : InPass start n batch rest w) (hne : batch ≠ []) :
    ∃ left, Exec.ended (restOfPass fuel left batch rest w).1 := by
  induction h with
  | begin => exact exists_restOfPass hne hend
  | @look n batch rest t w w' used state h hcheck ih =>
    obtain ⟨left, hleft⟩ := ih hne
    -- the pass made the same look
    have hsame : (check fuel t).runFrom w = (.ok state, w') := by
      rw [← hcheck]
      exact check_eq_of_ended (ended_check_of_restOfPass hleft) (by rw [hcheck]; rfl)
    rw [restOfPass_cons, hsame] at hleft
    exact ⟨left, hleft⟩
  | @next n batch w h hbatch ih =>
    obtain ⟨left, hleft⟩ := ih hbatch
    exact exists_restOfPass hne hleft

/-- Every look of a pass that ended did. -/
theorem InPass.look_ended (hend : Exec.ended ((checkAll fuel).runFrom start).1)
    (h : InPass start n batch (t :: rest) w) :
    ∃ fuel, Exec.ended ((check fuel t).runFrom w).1 := by
  have hne : batch ≠ [] := List.ne_nil_of_mem (h.rest_subset List.mem_cons_self)
  obtain ⟨left, hleft⟩ := h.rest_ended hend hne
  exact ⟨fuel, ended_check_of_restOfPass hleft⟩

/-- A pass ends when every single look does, and it ends within one batch more
than `when`s are nested in what waits at its start, however many triggers the
bodies register. -/
theorem pass_ends_within_depth (w : World)
    (hlooks : ∀ n batch t rest w', InPass w n batch (t :: rest) w' →
      ∃ fuel, Exec.ended ((check fuel t).runFrom w').1) :
    (∀ n batch rest w', InPass w n batch rest w' → batch ≠ [] → n < 1 + w.waitingDepth) ∧
    ∃ enough, ∀ fuel ≥ enough, Exec.ended ((checkAll fuel).runFrom w).1 ∧
      ∀ rounds ≥ 1 + w.waitingDepth,
        Exec.ended ((checkBatches fuel rounds (w.pending ++ w.fresh)).runFrom
          { w with pending := [], fresh := [] }).1 := by
  refine ⟨fun n batch rest w' h hne => ?_, ?_⟩
  · have := h.descends.batch hne
    omega
  · obtain ⟨enough, henough⟩ := InPass.begin.checkBatches_ends hlooks
    refine ⟨max enough (1 + w.waitingDepth), fun fuel hfuel => ⟨?_, fun rounds hrounds => ?_⟩⟩
    · exact henough fuel (by omega) fuel (by omega)
    · exact henough fuel (by omega) rounds (by omega)

/-- A unit that waits for what holds already, and then once more. -/
def nestedWhens : Script :=
  .build ⟨"nested", .toplevel, none, [],
    .when (.const (.bool true)) (.when (.const (.bool true)) .null none false) none false⟩ 0

/-- The pass after it needs two batches, and two suffice. -/
theorem pass_ends_within_depth_nested :
    ∃ w : World, w.waitingDepth = 1 ∧ (w.pending ++ w.fresh).length = 1 ∧
      (∀ n batch t rest w', InPass w n batch (t :: rest) w' →
        ∃ fuel, Exec.ended ((check fuel t).runFrom w').1) ∧
      Exec.ended ((checkBatches 1 1 (w.pending ++ w.fresh)).runFrom
        { w with pending := [], fresh := [] }).1 = false ∧
      ∃ enough, ∀ fuel ≥ enough, ∀ rounds ≥ 2,
        Exec.ended ((checkBatches fuel rounds (w.pending ++ w.fresh)).runFrom
          { w with pending := [], fresh := [] }).1 := by
  let w : World := (nestedWhens.run 1 ⟨0⟩).leaves ((World.start default default).addFrame 0 none).2
  have hdepth : w.waitingDepth = 1 := by decide +kernel
  have hend : Exec.ended ((checkAll 2).runFrom w).1 := by decide +kernel
  have hlooks : ∀ n batch t rest w', InPass w n batch (t :: rest) w' →
      ∃ fuel, Exec.ended ((check fuel t).runFrom w').1 :=
    fun _ _ _ _ _ h => h.look_ended hend
  obtain ⟨-, enough, henough⟩ := pass_ends_within_depth w hlooks
  rw [hdepth] at henough
  exact ⟨w, hdepth, by decide +kernel, hlooks, by decide +kernel, enough,
    fun fuel hfuel => (henough fuel hfuel).2⟩

end World

end Vigil
