import Vigil.Proofs.Exec.Fuel
import Vigil.Proofs.Exec.Rounds
import Vigil.Proofs.Trigger.Basic
import Vigil.Script

/-!
# Vigil.Proofs.Exec.Finite — with a limit of rounds every execution is finite

Executions of unbounded length are those that use up every budget. Under a
limit of `n` rounds a `while` loop never needs a budget of more than `n + 1`,
and a loop over a vector none that exceeds by two what a vector can hold; a
vector does not grow beyond what a row of slots can have. So from some budget
on, which depends on the world alone (`World.budget`), an execution does not see
its budget any more, and comes to an end (`Stmt.exec_completes`). The one thing
that may still be endless is the text of a value that contains itself
(`World.Unprintable`).

What a single `while` does under the limit is the other half of the main result
(`Script.limit_bounds_runs`).
-/

namespace Vigil

variable {f : FrameRef}

/-- The most slots that a vector of the heap has or may get. -/
def Heap.room (h : Heap) : Nat := (h.vecs.toList.map Vec.size).foldr max Slots.maxSize

theorem Heap.maxSize_le_room (h : Heap) : Slots.maxSize ≤ h.room := by
  unfold room
  induction h.vecs.toList with
  | nil => exact Nat.le_refl _
  | cons v vs ih => exact Nat.le_trans ih (Nat.le_max_right _ _)

theorem Heap.size_le_room (h : Heap) (r : VecRef) : (h.vec r).size ≤ h.room := by
  unfold vec room
  rw [← Array.getElem?_toList]
  generalize r.idx = i
  induction h.vecs.toList generalizing i with
  | nil => exact Nat.zero_le _
  | cons v vs ih =>
    cases i with
    | zero => exact Nat.le_max_left _ _
    | succ i => exact Nat.le_trans (ih i) (Nat.le_max_right _ _)

namespace World

/-- A budget that suffices for every loop under a limit of `n` rounds. -/
def budget (n : Nat) (w : World) : Nat := max n (w.heap.room + 1) + 1

/-- A `print` among the statements got to values one of which has no finite
text. -/
def Unprintable (f : FrameRef) (ss : List Stmt) (w : World) : Prop :=
  ∃ i args w₀ vals, Stmt.print i args ∈ ss ∧
    (Expr.evalList f args).runFrom w₀ = (.ok vals, w) ∧ vals.mapM w.heap.text = .error .exhausted

/-- Loops have a limit of `n` rounds, and vectors no more than `room` slots. -/
structure Bounded (n room : Nat) (w : World) : Prop where
  limit : w.limits.maxLoopRounds = some n
  vecs : ∀ r, (w.heap.vec r).size ≤ room

variable {n room : Nat} {w w' : World} {f : FrameRef}

theorem Bounded.of_eq (h : w.Bounded n room) (hheap : w'.heap = w.heap)
    (hlimits : w'.limits = w.limits) : w'.Bounded n room :=
  ⟨by rw [hlimits]; exact h.limit, by rw [hheap]; exact h.vecs⟩

theorem Bounded.edit (hroom : Slots.maxSize ≤ room) (h : w.Bounded n room) (hedit : Edit f w w') :
    w'.Bounded n room := by
  refine ⟨?_, fun r => ?_⟩
  · obtain ⟨_, _, _, _, rfl⟩ := hedit.aside
    exact h.limit
  · cases hedit with
    | entries | addTable | slots => exact h.vecs r
    | vector r' x hsize =>
      have hold := h.vecs r
      have hthis := h.vecs r'
      change (Heap.vec { w.heap with vecs := w.heap.vecs.setIfInBounds r'.idx x } r).size ≤ room
      unfold Heap.vec at hold hthis hsize ⊢
      rw [Array.getElem?_setIfInBounds]
      split
      · split
        · exact Nat.le_trans hsize (Nat.max_le.mpr ⟨hroom, hthis⟩)
        · exact Nat.zero_le _
      · exact hold
    | addVec elem =>
      have hold := h.vecs r
      unfold Heap.vec Heap.addVec at *
      rw [Array.getElem?_push]
      split
      · exact Nat.zero_le _
      · exact hold

theorem Bounded.edits {α : Type} {x : Exec α} (hroom : Slots.maxSize ≤ room) (hx : Exec.Edits f x)
    (h : w.Bounded n room) : (x.leaves w).Bounded n room := by
  have hall : ∀ w', Relation.ReflTransGen (Edit f) w w' → w'.Bounded n room := by
    intro w' hsteps
    induction hsteps with
    | refl => exact h
    | tail _ hstep ih => exact ih.edit hroom hstep
  exact hall _ (hx w)

end World

/-! ## Computations that complete -/

namespace Exec

variable {α β : Type} {I E : World → Prop}

/-- From worlds with the property `I`, both computations do the same, keep the
property and come to an end, save where `E` holds. -/
def Completes (I E : World → Prop) (x y : Exec α) : Prop :=
  ∀ w, I w → y.runFrom w = x.runFrom w ∧ I (x.leaves w) ∧
    (ended (x.runFrom w).1 ∨ E (x.leaves w))

namespace Completes

/-- A computation that answers at once. -/
theorem of_answer {x : Exec α} (hx : ∀ w, I w → ∃ r w', x.runFrom w = (r, w') ∧ I w' ∧ ended r) :
    Completes I E x x := by
  intro w hw
  obtain ⟨r, w', hrun, hI, hended⟩ := hx w hw
  unfold leaves
  rw [hrun]
  exact ⟨rfl, hI, .inl hended⟩

theorem pure (a : α) : Completes I E (pure a : Exec α) (Pure.pure a) :=
  .of_answer fun w hw => ⟨_, w, rfl, hw, rfl⟩

theorem fault (e : Fault) : Completes I E (fault e : Exec α) (Exec.fault e) :=
  .of_answer fun w hw => ⟨_, w, rfl, hw, rfl⟩

theorem modify {g : World → World} (hg : ∀ w, I w → I (g w)) :
    Completes I E (modify g : Exec PUnit) (modify g) :=
  .of_answer fun w hw => ⟨_, g w, rfl, hg w hw, rfl⟩

theorem bind {x y : Exec α} {k l : α → Exec β} (hx : Completes I E x y)
    (hk : ∀ a, Completes I E (k a) (l a)) : Completes I E (x >>= k) (y >>= l) := by
  intro w hw
  obtain ⟨heq, hI, hend⟩ := hx w hw
  unfold leaves at *
  rw [runFrom_bind, runFrom_bind, heq]
  rcases h : x.runFrom w with ⟨s | a, w₁⟩
  · rw [h] at hI hend
    refine ⟨rfl, hI, hend.imp (fun hs => ?_) id⟩
    revert hs
    cases s <;> exact id
  · rw [h] at hI
    exact hk a w₁ hI

theorem onFault {x y : Exec α} {recover : Fault → Exec α} (hx : Completes I E x y)
    (hr : ∀ e, Completes I E (recover e) (recover e)) :
    Completes I E (onFault x recover) (onFault y recover) := by
  intro w hw
  obtain ⟨heq, hI, hend⟩ := hx w hw
  unfold leaves at *
  rw [runFrom_onFault, runFrom_onFault, heq]
  rcases h : x.runFrom w with ⟨(e | a | _) | a, w₁⟩
  all_goals rw [h] at hI hend
  · exact hr e w₁ hI
  all_goals exact ⟨rfl, hI, hend⟩

/-- What comes next depends on a world that has the property. -/
theorem get_bind {k l : World → Exec β} (hk : ∀ w, I w → Completes I E (k w) (l w)) :
    Completes I E (get >>= k) (get >>= l) := fun w hw => hk w hw w hw

theorem heap_bind {k l : Heap → Exec β} (hk : ∀ w, I w → Completes I E (k w.heap) (l w.heap)) :
    Completes I E (heap >>= k) (heap >>= l) := fun w hw => hk w hw w hw

/-- What expressions do. -/
theorem of_local {x : Exec α} (hx : Local f x) (hI : ∀ w, I w → I (x.leaves w)) :
    Completes I E x x := by
  refine fun w hw => ⟨rfl, hI w hw, .inl ?_⟩
  rcases h : x.runFrom w with ⟨(e | a | _) | a, w₁⟩
  · rfl
  · rfl
  · exact absurd trivial (hx.not_ofLoop h)
  · rfl

end Completes

end Exec

namespace Stmt

open Exec (Completes)

variable {I E : World → Prop} {body body' : Exec Outcome} {n fuel fuel' : Nat} {room : Nat}
  {w : World} {i : StmtInfo}

/-- A `while` loop that has more budget than it may take rounds. -/
theorem whileRounds_completes {test : Exec Value} (htest : Completes I E test test)
    (hb : Completes I E body body') {rounds : Nat} (hrounds : rounds ≤ n)
    (hfuel : n < fuel + rounds) (hfuel' : n < fuel' + rounds) (last : Outcome) :
    Completes I E (whileRounds (some n) test body fuel rounds last)
      (whileRounds (some n) test body' fuel' rounds last) := by
  induction fuel generalizing fuel' rounds last with
  | zero => omega
  | succ fuel ih =>
    obtain ⟨m, rfl⟩ := Nat.exists_eq_add_one_of_ne_zero (n := fuel') (by omega)
    rw [whileRounds, whileRounds]
    refine .bind htest fun v => ?_
    split
    · exact .pure _
    · split
      · exact .fault _
      · refine .bind hb fun out => ?_
        split
        · exact .pure _
        · exact ih (by omega) (by omega) (by omega) out

/-- A loop over a vector that has more budget than there is room for. -/
theorem vectorRounds_completes {r : VecRef} (hroom : ∀ w, I w → (w.heap.vec r).size ≤ room)
    {bind : Value → Exec Unit} (hbind : ∀ v, Completes I E (bind v) (bind v))
    (hb : Completes I E body body') {i : Nat} (hi : i ≤ room + 1) (hfuel : room + 1 < fuel + i)
    (hfuel' : room + 1 < fuel' + i) (last : Outcome) :
    Completes I E (vectorRounds r bind body fuel i last)
      (vectorRounds r bind body' fuel' i last) := by
  induction fuel generalizing fuel' i last with
  | zero => omega
  | succ fuel ih =>
    obtain ⟨m, rfl⟩ := Nat.exists_eq_add_one_of_ne_zero (n := fuel') (by omega)
    rw [vectorRounds, vectorRounds]
    refine .heap_bind fun w hw => ?_
    dsimp only
    split
    · exact .pure _
    · have hsize := hroom w hw
      split
      · exact ih (by omega) (by omega) (by omega) _
      · refine .bind (hbind _) fun _ => .bind hb fun out => ?_
        split
        · exact .pure _
        · exact ih (by omega) (by omega) (by omega) out

theorem runFrom_printLine {vals : List Value} {r : Except Stop (List String)}
    (h : vals.mapM w.heap.text = r) :
    (printLine vals).runFrom w = (Exec.ofStop r >>= fun parts => modify fun w =>
      { w with output := w.output.push (", ".intercalate parts) }).runFrom w := by
  subst h
  rfl

/-- Printing ends unless a text does not. -/
theorem print_completes {ss : List Stmt} {n : Nat} {args : List Expr} (hroom : Slots.maxSize ≤ room)
    (hprint : Stmt.print i args ∈ ss) :
    Completes (World.Bounded n room) (World.Unprintable f ss)
      (Expr.evalList f args >>= printLine) (Expr.evalList f args >>= printLine) := by
  intro w hw
  have hargs : (Expr.evalList f args).leaves w |>.Bounded n room :=
    hw.edits hroom (Expr.evalList_edits f args)
  refine ⟨rfl, ?_⟩
  unfold Exec.leaves at *
  rw [Exec.runFrom_bind]
  rcases heval : (Expr.evalList f args).runFrom w with ⟨s | vals, w₁⟩
  · rw [heval] at hargs
    have hs : Exec.ended (.error s : Except Stop Unit) := by
      have hloop := (Expr.evalList_local f args).not_ofLoop heval
      cases s with
      | exhausted => exact absurd trivial hloop
      | _ => rfl
    exact ⟨hargs, .inl hs⟩
  · rw [heval] at hargs
    dsimp only
    rcases htext : vals.mapM w₁.heap.text with s | parts
    · rw [runFrom_printLine htext]
      refine ⟨hargs, ?_⟩
      cases s with
      | exhausted => exact .inr ⟨i, args, w, vals, hprint, heval, htext⟩
      | _ => exact .inl rfl
    · rw [runFrom_printLine htext]
      exact ⟨hargs.of_eq rfl rfl, .inl rfl⟩

theorem rules_completes (hroom : Slots.maxSize ≤ room) (f : FrameRef) :
    StoreRules f (Completes (World.Bounded n room) E) where
  bind := .bind
  onFault := .onFault
  fault := .fault
  clock hk := .get_bind fun w _ => hk w w rfl
  setNext _ := .modify fun _ hw => hw.of_eq rfl rfl
  raise _ _ := .modify fun _ hw => hw.of_eq rfl rfl
  table _ _ _ := .modify fun _ hw => ⟨hw.limit, hw.vecs⟩
  store hedits hlocal := .of_local hlocal fun _ hw => hw.edits hroom hedits

/-- With budget enough for the limit and for the room, the budget does not
matter. -/
theorem congruence_completes (hroom : Slots.maxSize ≤ room) (f : FrameRef) (ss : List Stmt)
    (hfuel : max n (room + 1) < fuel) (hfuel' : max n (room + 1) < fuel') :
    Congruence (fun s => s.preorder ⊆ ss) (fun s => s) fuel fuel' f
      (Completes (World.Bounded n room) (World.Unprintable f ss)) := by
  refine (rules_completes hroom f).congruence (fun s hs t ht => ?_) (fun i => ?_) ?_
    (fun captured limit isReturn span => ?_) (fun i args hs => ?_) (fun htest hb => ?_)
    fun r _ _ _ hbind hb => ?_
  · exact List.Subset.trans (preorder_subset_of_mem_parts ht) hs
  · exact .modify fun _ hw => hw.of_eq rfl rfl
  · exact .get_bind fun w _ => .pure _
  · refine .modify fun w hw => ?_
    rw [World.install_eq]
    exact hw.of_eq rfl rfl
  · exact print_completes hroom (hs (self_mem_preorder _))
  · refine .get_bind fun w hw => ?_
    rw [hw.limit]
    exact whileRounds_completes htest hb (Nat.zero_le n) (by omega) (by omega) _
  · exact vectorRounds_completes (fun w hw => hw.vecs r) hbind hb (Nat.zero_le _) (by omega)
      (by omega) _

/-- Under a limit of rounds, an execution with budget enough comes to an end
that does not depend on the budget. -/
theorem exec_completes (hlimit : w.limits.maxLoopRounds = some n) (f : FrameRef) (s : Stmt)
    (hfuel : w.budget n ≤ fuel) :
    (s.exec fuel f).runFrom w = (s.exec (w.budget n) f).runFrom w ∧
      (Exec.ended ((s.exec fuel f).runFrom w).1 ∨
        World.Unprintable f s.preorder ((s.exec fuel f).leaves w)) := by
  have hbounded : w.Bounded n w.heap.room := ⟨hlimit, w.heap.size_le_room⟩
  have hcompletes := (congruence_completes w.heap.maxSize_le_room f s.preorder hfuel
    (Nat.lt_succ_self _)).exec (List.Subset.refl _)
  obtain ⟨heq, -, hend⟩ := hcompletes w hbounded
  exact ⟨heq.symm, hend⟩

/-- A `while` statement enters the journal and takes its rounds. -/
theorem runFrom_exec_while (hlimit : w.limits.maxLoopRounds = some n) (f : FrameRef)
    {test : Expr} {body : Stmt} {r : Except Stop Outcome} {w' : World}
    (hrun : (whileRounds (some n) (test.eval f) (body.exec fuel f) fuel 0 .next).runFrom
      ((Exec.visit i).leaves w) = (r, w')) :
    ((Stmt.while i test body).exec fuel f).runFrom w = (r.map Outcome.afterLoop, w') := by
  set w₀ := (Exec.visit i).leaves w with hw₀
  have hvisit : (Exec.visit (Stmt.while i test body).info).runFrom w = (.ok (), w₀) := rfl
  have hlimit₀ : w₀.limits.maxLoopRounds = some n := hlimit
  rw [exec_eq, Exec.runFrom_bind, hvisit]
  dsimp only
  rw [act, Exec.runFrom_bind, Exec.runFrom_get]
  dsimp only
  rw [hlimit₀, Exec.runFrom_bind, hrun]
  cases r <;> rfl

end Stmt

/-- Under a limit of `n` rounds for each `while`:

* every run of a script comes to an end, which is the same for every budget
  that is large enough, unless it gets to print a value that contains itself;
* every execution of a `while` runs the body at most `n` times, and ends with the
  limit as an error exactly when its test says yes once more after `n` rounds
  that all went on, or when the body passes such an error on. -/
theorem Script.limit_bounds_runs (script : Script) (f : FrameRef) {w : World} {n : Nat}
    (hlimit : w.limits.maxLoopRounds = some n) :
    (∀ fuel, w.budget n ≤ fuel →
      (script.run fuel f).runFrom w = (script.run (w.budget n) f).runFrom w ∧
        (Exec.ended ((script.run fuel f).runFrom w).1 ∨
          World.Unprintable f script.body.preorder ((script.run fuel f).leaves w))) ∧
    ∀ (i : StmtInfo) (test : Expr) (body : Stmt) (g : FrameRef) (w₁ : World) (fuel : Nat),
      w₁.limits = w.limits → n < fuel → ∃ k ≤ n, ∃ r w',
        ((Stmt.while i test body).exec fuel g).runFrom w₁ = (r.map Outcome.afterLoop, w') ∧
        Stmt.Course n (test.eval g) (body.exec fuel g) ((Exec.visit i).leaves w₁) k r w' ∧
        (r = .error (.fault (.iterationLimit n)) ↔
          Stmt.Due (test.eval g) (body.exec fuel g) ((Exec.visit i).leaves w₁) n w' ∨
          ∃ j < n, ∃ w₂,
            Stmt.Due (test.eval g) (body.exec fuel g) ((Exec.visit i).leaves w₁) j w₂ ∧
            (body.exec fuel g).runFrom w₂ = (.error (.fault (.iterationLimit n)), w')) := by
  refine ⟨fun fuel hfuel => Stmt.exec_completes hlimit f script.body hfuel, ?_⟩
  intro i test body g w₁ fuel hlimits hfuel
  rcases hrun : (Stmt.whileRounds (some n) (test.eval g) (body.exec fuel g) fuel 0 .next).runFrom
    ((Exec.visit i).leaves w₁) with ⟨r, w'⟩
  obtain ⟨k, hk, hcourse⟩ := Stmt.whileRounds_course hfuel hrun
  refine ⟨k, hk, r, w', Stmt.runFrom_exec_while (by rw [hlimits, hlimit]) g hrun, hcourse, ?_⟩
  rw [← Stmt.whileRounds_limit_iff (test.eval_local g) hfuel, hrun, Prod.mk.injEq,
    and_iff_left rfl]

/-- A unit that goes round without end. -/
def spin : Doc.Unit :=
  ⟨"spin", .toplevel, none, [],
    .while (.const (.bool true)) .null⟩

/-- Two rounds and then the limit, whatever the budget. -/
theorem Script.limit_bounds_runs_spin :
    ∃ w : World, w.limits.maxLoopRounds = some 2 ∧
      (∀ fuel, w.budget 2 ≤ fuel →
        Exec.ended (((Script.build spin 0).run fuel ⟨0⟩).runFrom w).1) ∧
      ∃ i test body w', (Script.build spin 0).body = .while i test body ∧
        Stmt.Due (test.eval ⟨0⟩) (body.exec 3 ⟨0⟩) ((Exec.visit i).leaves w) 2 w' := by
  let w := World.start default { (default : Limits) with maxLoopRounds := some 2 }
  have hlimit : w.limits.maxLoopRounds = some 2 := rfl
  have hprints : ∀ s ∈ (Script.build spin 0).body.preorder, s.tag ≠ .print := by decide +kernel
  have hresult : (((Script.build spin 0).run 3 ⟨0⟩).runFrom w).1 =
    .error (.fault (.iterationLimit 2)) := by decide +kernel
  obtain ⟨hruns, hwhiles⟩ := limit_bounds_runs (Script.build spin 0) ⟨0⟩ hlimit
  refine ⟨w, hlimit, fun fuel hfuel => ?_, ?_⟩
  · rcases (hruns fuel hfuel).2 with hended | ⟨i, args, _, _, hprint, -⟩
    · exact hended
    · exact absurd rfl (hprints _ hprint)
  · obtain ⟨i, test, j, hbody⟩ : ∃ i test j,
      (Script.build spin 0).body = .while i test (.null j) := ⟨_, _, _, rfl⟩
    obtain ⟨k, -, r, w', hrun, -, hiff⟩ := hwhiles i test (.null j) ⟨0⟩ w 3 rfl (by decide)
    rw [Script.run, hbody, hrun] at hresult
    have hr : r = .error (.fault (.iterationLimit 2)) := by
      cases r <;> cases hresult
      rfl
    rcases hiff.mp hr with hdue | ⟨_, _, w₂, _, hnull⟩
    · exact ⟨i, test, .null j, w', hbody, hdue⟩
    · rw [Stmt.exec_eq] at hnull
      cases hnull

end Vigil
