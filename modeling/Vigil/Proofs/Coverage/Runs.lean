import Vigil.Proofs.Coverage.Counts

/-!
# Vigil.Proofs.Coverage.Runs — what executions add to the counts

An execution that comes back has started its statement once, and its parts as
often as fits (`Stmt.exec_ran`). It does not matter whether it came back with
an outcome or with an error: what a statement has not reached it has not
counted.
-/

namespace Vigil

open Exec (Respects)

namespace World

/-- How many triggers wait to run a statement when their condition holds. -/
def waitsFor (i : StmtId) (w : World) : Nat :=
  w.census fun _ tr => tr.captured.any fun c => c.body.id = i

/-- The counts of a world. -/
def counts (w : World) : Counts := ⟨w.journal.count, fun i => w.waitsFor i⟩

/-- The counts grew by something of a kind. -/
def Adds (P : Counts → Prop) (w w' : World) : Prop := ∃ d, w'.counts = w.counts + d ∧ P d

theorem isPreorder_adds {P : Counts → Prop} (hzero : P 0) (hadd : ∀ m n, P m → P n → P (m + n)) :
    IsPreorder World (Adds P) where
  refl w := ⟨0, rfl, hzero⟩
  trans w w₁ w₂ h h' := by
    obtain ⟨m, hm, hP⟩ := h
    obtain ⟨n, hn, hP'⟩ := h'
    exact ⟨m + n, by rw [hn, hm, Counts.add_assoc], hadd m n hP hP'⟩

variable {w w' : World} {P Q T : Counts → Prop}

theorem Adds.mono (h : Adds P w w') (hPQ : ∀ d, P d → Q d) : Adds Q w w' := by
  obtain ⟨d, hd, hP⟩ := h
  exact ⟨d, hd, hPQ d hP⟩

theorem Aside.counts_eq (h : w.Aside w') : w'.counts = w.counts := by
  obtain ⟨_, _, _, _, rfl⟩ := h
  rfl

theorem Aside.adds (h : w.Aside w') (hP : P 0) : Adds P w w' := ⟨0, h.counts_eq, hP⟩

theorem counts_start (w : World) (i : StmtId) :
    World.counts { w with journal := .start i w.now :: w.journal } = w.counts + .start i := by
  ext j
  · change Journal.count (.start i w.now :: w.journal) j = _
    unfold Journal.count
    rw [List.countP_cons]
    by_cases hij : i = j
    · simp [Entry.startOf?, hij, counts, Journal.count, Counts.start]
    · simp [Entry.startOf?, hij, counts, Journal.count, Counts.start, Ne.symm hij]
  · rfl

theorem counts_install (w : World) (c : Captured) (deadline : Option Instant) (isReturn : Bool)
    (span : Span) :
    (w.install c deadline isReturn span).counts =
      w.counts + if w.letsIn c then .wait c.body.id else 0 := by
  rw [install_eq]
  ext j
  · have hnone : (if w.letsIn c then Counts.wait c.body.id else 0).starts j = 0 := by
      split <;> rfl
    have hjournal : Journal.count ((if isReturn then [.defer c.frame w.nextTrigger] else []) ++
        w.journal) j = w.journal.count j := by
      cases isReturn <;> simp [Journal.count, Entry.startOf?]
    rw [Counts.starts_add, hnone]
    exact hjournal
  · have hpush : ({ w with triggers := w.triggers.push (w.installed c deadline isReturn span) } :
        World).waitsFor j = w.waitsFor j + _ := census_push rfl
    rw [Counts.waits_add]
    refine hpush.trans (congrArg _ ?_)
    unfold installed
    by_cases hin : w.letsIn c
    · by_cases hj : c.body.id = j
      · simp [hin, hj, Counts.wait]
      · simp [hin, hj, Counts.wait, Ne.symm hj]
    · simp [hin]

end World

/-! ## Computations -/

namespace Stmt

open World

variable {α β : Type} {f : FrameRef} {P Q T : Counts → Prop} {i : StmtInfo} {d : Counts}

theorem respects_edits {x : Exec α} (hx : Exec.Edits f x) (hP : P 0) : Respects (Adds P) x :=
  fun w _ => (hx.aside w).adds hP

theorem respects_mono {x : Exec α} (hx : Respects (Adds P) x) (hPQ : ∀ d, P d → Q d) :
    Respects (Adds Q) x := fun w hback => (hx w hback).mono hPQ

/-- A computation and then another. -/
theorem respects_seq {x : Exec α} {k : α → Exec β} (hx : Respects (Adds P) x)
    (hk : ∀ a, Respects (Adds Q) (k a))
    (hstop : ∀ w e, (x.runFrom w).1 = .error (.fault e) → ∀ m, P m → T m)
    (hgo : ∀ m n, P m → Q n → T (m + n)) : Respects (Adds T) (x >>= k) := by
  intro w hback
  unfold Exec.leaves
  rw [Exec.runFrom_bind] at hback ⊢
  rcases h : x.runFrom w with ⟨(e | a | _) | a, w₁⟩
  all_goals rw [h] at hback
  · exact (hx.of_eq h rfl).mono (hstop w e (by rw [h]))
  · cases hback
  · cases hback
  · obtain ⟨m, hm, hP⟩ := hx.of_eq h rfl
    obtain ⟨n, hn, hQ⟩ := hk a w₁ hback
    refine ⟨m + n, ?_, hgo m n hP hQ⟩
    rw [← Counts.add_assoc, ← hm]
    exact hn

/-- After a change that is not counted. -/
theorem respects_modify_bind {g : World → World} {k : PUnit → Exec β}
    (hg : ∀ w, (g w).counts = w.counts) (hk : Respects (Adds P) (k ⟨⟩)) :
    Respects (Adds P) (modify g >>= k) := by
  intro w hback
  unfold Exec.leaves
  rw [Exec.runFrom_bind, Exec.runFrom_modify] at hback ⊢
  obtain ⟨d, hd, hP⟩ := hk (g w) hback
  exact ⟨d, by rw [← hg w]; exact hd, hP⟩

theorem respects_setNext_bind {s : StmtId} {k : PUnit → Exec β} (hk : Respects (Adds P) (k ⟨⟩)) :
    Respects (Adds P) (Exec.setNext f s >>= k) := respects_modify_bind (fun _ => rfl) hk

/-- A computation whose errors are caught. -/
theorem respects_recovered {R : World → World → Prop} {x : Exec α} (hx : Respects R x) (a : α) :
    Respects R (Exec.onFault x fun _ => pure a) := by
  intro w hback
  unfold Exec.leaves
  rw [Exec.runFrom_onFault] at hback ⊢
  rcases h : x.runFrom w with ⟨(e | a | _) | a, w₁⟩
  all_goals rw [h] at hback
  · exact hx.of_eq h rfl
  · cases hback
  · cases hback
  · exact hx.of_eq h rfl

theorem onFault_ne_fault (x : Exec α) (a : α) (w : World) (e : Fault) :
    ((Exec.onFault x fun _ => pure a).runFrom w).1 ≠ .error (.fault e) := by
  rw [Exec.runFrom_onFault]
  rcases x.runFrom w with ⟨(e | a | _) | a, w₁⟩ <;> nofun

/-! ## Statements -/

variable {fuel : Nat} {s : Stmt} {ss : List Stmt}

theorem execList_row (hss : ∀ a ∈ ss, Respects (Adds (Ran a)) (exec fuel f a))
    (h : Distinct (forest ss)) : Respects (Adds (Row ss)) (execList fuel f ss) := by
  induction ss with
  | nil =>
    rw [execList]
    exact fun w _ => ⟨0, rfl, .zero _, .nil, fun _ ha => by cases ha⟩
  | cons s ss ih =>
    have hrest : Respects (Adds (Row ss)) (execList fuel f ss) :=
      ih (fun a ha => hss a (List.mem_cons_of_mem s ha)) h.cons.2.1
    have hgo : ∀ m n, Ran s m → n = 0 ∨ Row ss n → Row (s :: ss) (m + n) :=
      fun m n hm hn => .cons h hm hn
    rw [execList]
    refine respects_setNext_bind (respects_seq (Q := fun n => n = 0 ∨ Row ss n)
      (hss s List.mem_cons_self) (fun out => ?_) (fun _ _ _ m hm => ?_) hgo)
    · intro w hback
      have hend : ∀ delayed : Bool, Respects (Adds fun n => n = 0 ∨ Row ss n)
          (if out.flow ≠ .next || out.value.isSome || delayed then pure out
            else execList fuel f ss : Exec Outcome) := by
        intro delayed
        split
        · exact fun w _ => ⟨0, rfl, .inl rfl⟩
        · exact respects_mono hrest fun _ => .inr
      exact hend _ w hback
    · exact hgo m 0 hm (.inl rfl)

theorem execEach_each (hss : ∀ a ∈ ss, Respects (Adds (Ran a)) (exec fuel f a))
    (h : Distinct (forest ss)) : Respects (Adds (Each ss)) (execEach fuel f ss) := by
  induction ss with
  | nil =>
    rw [execEach]
    exact fun w _ => ⟨0, rfl, .zero _, fun _ ha => by cases ha⟩
  | cons s ss ih =>
    have hrest : Respects (Adds (Each ss)) (execEach fuel f ss) :=
      ih (fun a ha => hss a (List.mem_cons_of_mem s ha)) h.cons.2.1
    rw [execEach]
    refine respects_setNext_bind (respects_seq
      (respects_recovered (hss s List.mem_cons_self) .next) (fun _ => hrest)
      (fun w e he => absurd he (onFault_ne_fault _ _ w e)) fun m n hm hn => .cons h hm hn)

theorem ne_of_child {c : Stmt} (h : Distinct s.preorder) (hc : c ∈ s.children) : c.id ≠ s.id := by
  intro heq
  have hin : c.id ∈ numbers (forest s.children) := List.mem_map_of_mem (mem_forest_self hc)
  rw [heq] at hin
  exact h.root hin

theorem exec_of_below (h : Distinct s.preorder) (hact : Respects (Adds (Below s)) (act fuel f s)) :
    Respects (Adds (Ran s)) (exec fuel f s) := by
  intro w hback
  unfold Exec.leaves
  rw [exec_eq, Exec.runFrom_bind, Exec.runFrom_visit] at hback ⊢
  obtain ⟨d, hd, hbelow⟩ := hact _ hback
  refine ⟨.start s.id + d, ?_, hbelow.ran h⟩
  rw [← Counts.add_assoc, ← counts_start]
  exact hd

/-- A `when` starts and leaves its bodies to a trigger, if that is let in. -/
theorem when_ran {test : Expr} {body : Stmt} {timeout : Option Expr} {timeoutBody : Option Stmt}
    {isReturn : Bool} (h : Distinct (Stmt.when i test body timeout timeoutBody isReturn).preorder) :
    Respects (Adds (Ran (.when i test body timeout timeoutBody isReturn)))
      (exec fuel f (.when i test body timeout timeoutBody isReturn)) := by
  intro w hback
  obtain ⟨w₁, limit, haside, hrun⟩ := exec_when_apart hback
  unfold Exec.leaves
  rw [hrun]
  set d : Counts := if w₁.letsIn ⟨test, body, timeoutBody, f⟩ then .wait body.id else 0 with hd
  have hstarts : ∀ j, d.starts j = 0 := by
    intro j
    rw [hd]
    split <;> rfl
  have hwaits : ∀ j, j ≠ body.id → d.waits j = 0 := by
    intro j hj
    rw [hd]
    split
    · exact if_neg hj
    · rfl
  have hone : d.waits body.id ≤ 1 := by
    rw [hd]
    split
    · exact Nat.le_of_eq (if_pos rfl)
    · exact Nat.zero_le 1
  have hbody : body ∈ (Stmt.when i test body timeout timeoutBody isReturn).children :=
    List.mem_cons_self
  refine ⟨.start i.id + d, ?_, Below.ran h ⟨⟨fun j hj => ?_, fun q hq => ?_⟩, ?_⟩⟩
  · rw [← Counts.add_assoc, ← counts_start, ← haside.counts_eq]
    exact counts_install w₁ ⟨test, body, timeoutBody, f⟩ limit isReturn i.span
  · refine ⟨hstarts j, hwaits j ?_⟩
    rintro rfl
    exact hj (List.mem_map_of_mem (mem_forest_self hbody))
  · -- no statement below has the body as a child
    refine fits_of_quiet (fun j _ => hstarts j) fun j hj => hwaits j ?_
    rintro rfl
    exact h.below.root_not_child hbody hq hj
  · have hzero : ∀ a ∈ (Stmt.when i test body timeout timeoutBody isReturn).children,
        (Counts.start i.id + d).starts a.id = 0 := by
      intro a ha
      rw [Counts.starts_add, hstarts]
      exact if_neg (ne_of_child h ha)
    have hself : (Counts.start i.id + d).starts i.id = 1 := by
      rw [Counts.starts_add, hstarts]
      exact if_pos rfl
    have htimeout : (timeoutBody.elim 0 fun b => (Counts.start i.id + d).starts b.id) = 0 := by
      cases timeoutBody with
      | none => rfl
      | some b => exact hzero b (List.mem_cons_of_mem _ List.mem_cons_self)
    change (Counts.start i.id + d).starts body.id + (timeoutBody.elim 0 fun b =>
      (Counts.start i.id + d).starts b.id) + (Counts.start i.id + d).waits body.id ≤
        (Counts.start i.id + d).starts i.id
    rw [hzero body hbody, htimeout, hself, Counts.waits_add]
    exact Nat.le_trans (Nat.le_of_eq (by simp [Counts.start])) hone

/-- Going through the children of a list. -/
theorem below_list {body : List Stmt} (h : Distinct (Stmt.list i body).preorder) (hd : Row body d) :
    Below (.list i body) d := by
  have hself : d.starts i.id = 0 := (hd.inside.within _ h.root).1
  have hchild : ∀ a ∈ body, (Counts.start i.id + d).starts a.id = d.starts a.id := by
    intro a ha
    have hne : a.id ≠ i.id := ne_of_child h ha
    simp [Counts.start, hne]
  have hone : (Counts.start i.id + d).starts i.id = 1 := by simp [Counts.start, hself]
  refine ⟨hd.inside, hd.order.imp_of_mem fun ha hb hle => ?_, fun a ha => ?_⟩
  · exact (hchild _ hb).symm ▸ (hchild _ ha).symm ▸ hle
  · exact (hchild a (List.mem_of_mem_head? ha)).trans ((hd.first a ha).trans hone.symm)

/-- Running all handlers of an event. -/
theorem below_bodyList {bodies : List Stmt} (h : Distinct (Stmt.bodyList i bodies).preorder)
    (hd : Each bodies d) :
    Below (.bodyList i bodies) d := by
  have hself : d.starts i.id = 0 := (hd.inside.within _ h.root).1
  have hone : (Counts.start i.id + d).starts i.id = 1 := by simp [Counts.start, hself]
  refine ⟨hd.inside, fun a ha => Eq.trans ?_ hone.symm⟩
  have hne : a.id ≠ i.id := ne_of_child h ha
  change (Counts.start i.id).starts a.id + d.starts a.id = 1
  rw [hd.once a ha]
  exact congrArg (· + 1) (if_neg hne)

/-- Taking one of two branches, or none. -/
theorem below_cond {test : Expr} {thenBody elseBody : Stmt}
    (h : Distinct (Stmt.cond i test thenBody elseBody).preorder)
    (hd : d = 0 ∨ Ran thenBody d ∨ Ran elseBody d) : Below (.cond i test thenBody elseBody) d := by
  have hthen : thenBody ∈ (Stmt.cond i test thenBody elseBody).children := List.mem_cons_self
  have helse : elseBody ∈ (Stmt.cond i test thenBody elseBody).children :=
    List.mem_cons_of_mem _ List.mem_cons_self
  have hne : thenBody.id ≠ i.id := ne_of_child h hthen
  have hne' : elseBody.id ≠ i.id := ne_of_child h helse
  have hdisjoint : List.Disjoint (numbers thenBody.preorder) (numbers elseBody.preorder) := by
    intro j hj hj'
    exact h.below.cons.2.2 hj (numbers_subset (preorder_subset_forest List.mem_cons_self) hj')
  have hself : ∀ b : Stmt, b.id ∈ numbers b.preorder := fun b =>
    List.mem_map_of_mem b.self_mem_preorder
  have hfits : d.starts thenBody.id + d.starts elseBody.id ≤ 1 → d.starts i.id = 0 →
      (Stmt.cond i test thenBody elseBody).Fits (.start i.id + d) := by
    intro hsum hi
    rw [Fits]
    simp only [Counts.starts_add, Counts.start, hi, if_neg hne, if_neg hne', if_pos]
    omega
  rcases hd with rfl | hd | hd
  · exact ⟨.zero _, hfits (Nat.zero_le 1) rfl⟩
  · have hinside := hd.inside.widen h.below hthen
    have hother : d.starts elseBody.id = 0 :=
      (hd.inside.within _ fun hin => hdisjoint hin (hself elseBody)).1
    exact ⟨hinside, hfits (Nat.le_of_eq (by rw [hd.starts, hother])) (hinside.within _ h.root).1⟩
  · have hinside := hd.inside.widen h.below helse
    have hother : d.starts thenBody.id = 0 :=
      (hd.inside.within _ fun hin => hdisjoint (hself thenBody) hin).1
    exact ⟨hinside, hfits (Nat.le_of_eq (by rw [hd.starts, hother])) (hinside.within _ h.root).1⟩

/-- Statements whose counts are free go by what any number of executions of
their parts add. -/
theorem act_below_free (h : Distinct s.preorder) (htag : s.tag ≠ .when) (hfits : ∀ n, s.Fits n)
    (hchild : ∀ c ∈ s.children, Respects (Adds (Ran c)) (exec fuel f c)) :
    Respects (Adds (Below s)) (act fuel f s) := by
  have hpre : IsPreorder World (Adds (Inside (forest s.children))) :=
    isPreorder_adds (.zero _) fun _ _ => .add
  have hbounds : Bounds fuel f (Adds (Inside (forest s.children))) :=
    .of_aside (fun _ _ hw => hw.adds (.zero _)) fuel
  refine respects_mono (hbounds.act htag fun t ht => ?_) fun d hd => ⟨hd, hfits _⟩
  have hin := s.parts_subset_children ht
  exact respects_mono (hchild t hin) fun _ hd => hd.inside.widen h.below hin

/-- An execution that comes back started its statement once, and the statements
below it as often as fits. -/
theorem exec_ran (fuel : Nat) (f : FrameRef) (s : Stmt) :
    Distinct s.preorder → Respects (Adds (Ran s)) (exec fuel f s) := by
  induction s using tree_induction with
  | h s ih =>
    intro h
    have hchild : ∀ c ∈ s.children, Respects (Adds (Ran c)) (exec fuel f c) :=
      fun c hc => ih c hc (h.below.tree hc)
    by_cases htag : s.tag = .when
    · cases s with
      | «when» i test body timeout timeoutBody isReturn => exact when_ran h
      | _ => cases htag
    · refine exec_of_below h ?_
      cases s with
      | list i body =>
        rw [act]
        exact respects_mono (execList_row hchild h.below) fun _ => below_list h
      | bodyList i bodies =>
        rw [act]
        refine respects_seq (Q := (· = 0)) (execEach_each hchild h.below)
          (fun _ w _ => ⟨0, rfl, rfl⟩) (fun _ _ _ m hm => below_bodyList h hm) ?_
        rintro m n hm rfl
        exact below_bodyList h hm
      | cond i test thenBody elseBody =>
        rw [act]
        refine respects_seq (Q := fun d => Ran thenBody d ∨ Ran elseBody d)
          (respects_edits (P := (· = 0)) (test.eval_edits f) rfl) (fun v => ?_)
          (fun _ _ _ m hm => below_cond h (.inl hm)) ?_
        · split
          · exact respects_setNext_bind
              (respects_mono (hchild elseBody (by simp [children])) fun _ => .inr)
          · exact respects_setNext_bind
              (respects_mono (hchild thenBody (by simp [children])) fun _ => .inl)
        · rintro m n rfl hn
          rw [Counts.zero_add]
          exact below_cond h (.inr hn)
      | «when» i test body timeout timeoutBody isReturn => exact absurd rfl htag
      | _ => exact act_below_free h htag (fun _ => trivial) hchild

end Stmt

end Vigil
