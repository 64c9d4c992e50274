import Vigil.Proofs.Flow.Signals
import Vigil.Proofs.Flow.Traces

/-!
# Vigil.Proofs.Flow.Loops — loops that run out

A loop of any kind goes from round to round. Between two of them it looks
whether there is one more (`Loop.Offer`): the test of a `while` is evaluated, a
loop over a collection looks for the next key, filled position or byte and binds
the loop variables. The loop ends when nothing is offered, and has run out, or
when a round leaves it (`Loop.Course`). A loop of each kind is a sequence whose
offers tell this (`Loop.Tells`).

A loop uses up `break` and `next` and nothing else. One that ran out reports
`fallthrough` when its last round did, whatever those before reported, and the
rest of the list it stands in is then left out; otherwise it reports that
execution goes on (`Stmt.flow_of_loop_run_out`).
-/

namespace Vigil

open Exec (leaves runFrom_bind)

namespace Exec

variable {α : Type} {x : Exec α} {w w' : World} {a : α}

theorem ofAbort_ok {r : Except Abort α} (h : (ofAbort r).runFrom w = (.ok a, w')) :
    r = .ok a ∧ w' = w := by
  cases r with
  | error e => cases h
  | ok b =>
    cases h
    exact ⟨rfl, rfl⟩

end Exec

namespace Loop

variable {σ ι : Type} {body : Exec Outcome} {w w₁ w' : World} {outs : List Outcome}
  {ending : Option Outcome} {last o : Outcome} {bind : Value → Exec Unit}

/-! ## Courses -/

/-- What may happen between two rounds, at a position of the loop: there is
nothing more to do, or one more round is prepared and the position moves on. -/
abbrev Offer (σ : Type) := σ → World → Option σ → World → Prop

/-- From a position on, the rounds that went on reported `outs`. Then the loop
ran out, or it was left by a round that reported `ending`. -/
inductive Course (offer : Offer σ) (body : Exec Outcome) :
    σ → World → List Outcome → Option Outcome → World → Prop where
  | runsOut {p w w'} (hoffer : offer p w none w') :
      Course offer body p w [] none w'
  | isLeft {p p' w w₁ w' out} (hoffer : offer p w (some p') w₁)
      (hbody : body.runFrom w₁ = (.ok out, w')) (hout : out.flow.stops = true) :
      Course offer body p w [] (some out) w'
  | goesOn {p p' w w₁ w₂ w' out outs ending} (hoffer : offer p w (some p') w₁)
      (hbody : body.runFrom w₁ = (.ok out, w₂)) (hout : out.flow.stops = false)
      (hrest : Course offer body p' w₂ outs ending w') :
      Course offer body p w (out :: outs) ending w'

/-- What may happen between two rounds is what the offers of the loop come to. -/
def Tells (offer : σ → Exec (Option (ι × σ))) (Offered : Offer σ) : Prop :=
  ∀ p w next w', Offered p w next w' ↔
    ∃ a, (offer p).runFrom w = (.ok a, w') ∧ a.map Prod.snd = next

section

variable {offer : σ → Exec (Option (ι × σ))} {Offered : Offer σ} {held : List TableRef}
  {budget : σ → Nat} {rounds : σ → Outcome → Exec Outcome} {p : σ}

/-- A loop whose next round comes to an end is left, or goes on. -/
theorem runFrom_of_more (h : (Stmt.loopSequence offer body held).Drives budget rounds)
    (htells : Tells offer Offered) {p' : σ} {w₂ : World} (hoffer : Offered p w (some p') w₁)
    (hbody : body.runFrom w₁ = (.ok o, w₂)) : (rounds p last).runFrom w =
      if o.flow.stops then (.ok o, w₂.release held) else (rounds p' o).runFrom w₂ := by
  obtain ⟨_, hrun, ha⟩ := (htells _ _ _ _).mp hoffer
  obtain ⟨⟨x, p'⟩, rfl, rfl⟩ := Option.map_eq_some_iff.mp ha
  have hpart : (Stmt.loopSequence offer body held).part x = body := rfl
  have hon : (Stmt.loopSequence offer body held).goesOn o w₂ = !o.flow.stops := rfl
  rw [h.look_eq, Sequence.runFrom_look_of_some hrun, Sequence.runFrom_turn, hpart, hbody]
  dsimp only
  rw [hon]
  cases o.flow.stops <;> rfl

/-- A course gives the outcome of its last round. -/
theorem runFrom_of_course (h : (Stmt.loopSequence offer body held).Drives budget rounds)
    (htells : Tells offer Offered) (hcourse : Course Offered body p w outs ending w') :
    (rounds p last).runFrom w = (.ok (ending.getD (outs.getLastD last)), w'.release held) := by
  induction hcourse generalizing last with
  | runsOut hoffer =>
    obtain ⟨a, hrun, ha⟩ := (htells _ _ _ _).mp hoffer
    obtain rfl := Option.map_eq_none_iff.mp ha
    rw [h.look_eq, Sequence.runFrom_look_of_none hrun]
    rfl
  | isLeft hoffer hbody hout =>
    rw [runFrom_of_more h htells hoffer hbody, if_pos hout]
    rfl
  | goesOn hoffer hbody hout _ ih =>
    rw [runFrom_of_more h htells hoffer hbody, hout, if_neg Bool.false_ne_true, ih,
      List.getLastD_cons]

/-- Rounds that give a result took a course. -/
theorem exists_course (h : (Stmt.loopSequence offer body held).Drives budget rounds)
    (htells : Tells offer Offered) (hrun : (rounds p last).runFrom w = (.ok o, w')) :
    ∃ outs ending w₁, Course Offered body p w outs ending w₁ := by
  induction hn : budget p using Nat.strongRecOn generalizing p w last with
  | _ n ih =>
    rw [h.look_eq] at hrun
    obtain ⟨_ | ⟨x, p'⟩, w₁, hoffer, hturn⟩ := Exec.bind_ok hrun
    · exact ⟨[], none, w₁, .runsOut ((htells _ _ _ _).mpr ⟨_, hoffer, rfl⟩)⟩
    · have hoffered := (htells _ _ _ _).mpr ⟨_, hoffer, rfl⟩
      rcases hbody : body.runFrom w₁ with ⟨s | out, w₂⟩
      · have hpart : (Stmt.loopSequence offer body held).part x = body := rfl
        dsimp only at hturn
        rw [Sequence.runFrom_turn, hpart, hbody] at hturn
        cases hturn
      · by_cases hout : out.flow.stops = true
        · exact ⟨[], some out, w₂, .isLeft hoffered hbody hout⟩
        · rw [← h.look_eq, runFrom_of_more h htells hoffered hbody, if_neg hout] at hrun
          obtain ⟨outs, ending, w₃, hrest⟩ := ih _ (hn ▸ h.less hoffer) hrun rfl
          exact ⟨out :: outs, ending, w₃, .goesOn hoffered hbody (by simpa using hout) hrest⟩

end

/-- What each round that went on reported is among what the body may report. -/
theorem Course.reports {offer : Offer σ} {p : σ} {Q : Outcome → Prop}
    (h : Course offer body p w outs ending w') (hbody : Exec.Yields body Q) :
    ∀ out ∈ outs, Q out ∧ out.flow.stops = false := by
  induction h with
  | runsOut | isLeft => simp
  | goesOn _ hrun hout _ ih =>
    intro out hmem
    rcases List.mem_cons.mp hmem with rfl | hmem
    · exact ⟨hbody _ _ _ hrun, hout⟩
    · exact ih out hmem

/-- A round that leaves the loop breaks or returns. -/
theorem Course.stops {offer : Offer σ} {p : σ} (h : Course offer body p w outs ending w') :
    ∀ out ∈ ending, out.flow.stops = true := by
  induction h with
  | runsOut => simp
  | isLeft _ _ hout =>
    intro out hmem
    cases hmem
    exact hout
  | goesOn _ _ _ _ ih => exact ih

/-! ## The kinds of loop -/

/-- A `while` loop, at a position told by the budget left and the rounds taken.
It runs out when its test gives zero. -/
inductive WhileOffer (limit : Option Nat) (test : Exec Value) : Offer (Nat × Nat) where
  | ended {b n w w' v} (htest : test.runFrom w = (.ok v, w'))
      (hv : v.isZero = true) : WhileOffer limit test (b + 1, n) w none w'
  | more {b n w w' v} (htest : test.runFrom w = (.ok v, w'))
      (hv : v.isZero = false) (hlimit : ∀ max ∈ limit, n < max) :
      WhileOffer limit test (b + 1, n) w (some (b, n + 1)) w'

/-- A loop over a table, at the keys still to come. Those that are gone from
the table are passed over; the loop runs out behind the last. -/
inductive TableOffer (r : TableRef) (bind : List Value → Option Value → Exec Unit) :
    Offer (List Key) where
  | ended {w : World} : TableOffer r bind [] w none w
  | gone {k rest w w' next} (hgone : Table.find? k (w.heap.table r).entries = none)
      (hrest : TableOffer r bind rest w next w') : TableOffer r bind (k :: rest) w next w'
  | more {k rest w w' v index} (hfound : Table.find? k (w.heap.table r).entries = some v)
      (hindex : (w.heap.table r).indexOf k = .ok index)
      (hbind : (bind index v).runFrom w = (.ok (), w')) :
      TableOffer r bind (k :: rest) w (some rest) w'

/-- A loop over a vector, at a position told by the budget left and the next
place to look at. Empty places are passed over; the loop runs out past the end. -/
inductive VectorOffer (r : VecRef) (bind : Value → Exec Unit) : Offer (Nat × Nat) where
  | ended {b i w} (hend : (w.heap.vec r).size < i) :
      VectorOffer r bind (b + 1, i) w none w
  | hole {b i w w' next} (hin : ¬ (w.heap.vec r).size < i) (hhole : (w.heap.vec r).lookup i = none)
      (hrest : VectorOffer r bind (b, i + 1) w next w') : VectorOffer r bind (b + 1, i) w next w'
  | more {b i w w'} (hin : ¬ (w.heap.vec r).size < i)
      (hfilled : (w.heap.vec r).lookup i ≠ none)
      (hbind : (bind (.count (.ofNat i))).runFrom w = (.ok (), w')) :
      VectorOffer r bind (b + 1, i) w (some (b, i + 1)) w'

/-- A loop over a string, at the bytes still to come. -/
inductive StringOffer (bind : Value → Exec Unit) : Offer Bytes where
  | ended {w : World} : StringOffer bind [] w none w
  | more {b : UInt8} {rest : Bytes} {w w' : World}
      (hbind : (bind (.str [b])).runFrom w = (.ok (), w')) :
      StringOffer bind (b :: rest) w (some rest) w'

theorem while_tells {limit : Option Nat} {test : Exec Value} :
    Tells (Stmt.whileOffer limit test) (WhileOffer limit test) := by
  intro p w next w'
  constructor
  · intro hoffer
    cases hoffer with
    | ended htest hv =>
      refine ⟨none, ?_, rfl⟩
      rw [Stmt.whileOffer, Exec.runFrom_bind_of_ok htest, if_pos hv]
      rfl
    | @more b n _ _ _ htest hv hlimit =>
      refine ⟨some (n, b, n + 1), ?_, rfl⟩
      have hmore : ¬ limit.any (· ≤ n) = true := by
        intro hany
        obtain ⟨max, hmax, hle⟩ := (Option.any_eq_true _ _).mp hany
        exact Nat.not_le.mpr (hlimit max hmax) (of_decide_eq_true hle)
      rw [Stmt.whileOffer, Exec.runFrom_bind_of_ok htest, hv,
        if_neg Bool.false_ne_true, if_neg hmore]
      rfl
  · rintro ⟨a, hrun, rfl⟩
    obtain ⟨_ | b, n⟩ := p
    · cases hrun
    · obtain ⟨v, w₁, htest, hrun⟩ := Exec.bind_ok hrun
      split at hrun
      · cases hrun
        exact .ended htest ‹_›
      · rename_i hv
        split at hrun
        · cases hrun
        · rename_i hlimit
          cases hrun
          refine .more htest (by simpa using hv) fun max hmax => ?_
          rw [Option.mem_def.mp hmax] at hlimit
          simpa using hlimit

theorem table_tells {r : TableRef} {bind : List Value → Option Value → Exec Unit} :
    Tells (Stmt.tableOffer r bind) (TableOffer r bind) := by
  intro p w next w'
  constructor
  · intro hoffer
    induction hoffer with
    | ended => exact ⟨none, rfl, rfl⟩
    | gone hgone _ ih => rwa [Stmt.runFrom_tableOffer_cons, hgone]
    | @more k rest _ _ v index hfound hindex hbind =>
      refine ⟨some (⟨k, index, v⟩, rest), ?_, rfl⟩
      rw [Stmt.runFrom_tableOffer_cons, hfound]
      dsimp only
      rw [hindex, Exec.ofAbort, pure_bind, Exec.runFrom_bind_of_ok hbind]
      rfl
  · rintro ⟨a, hrun, rfl⟩
    induction p with
    | nil =>
      cases hrun
      exact .ended
    | cons k rest ih =>
      rw [Stmt.runFrom_tableOffer_cons] at hrun
      cases hfound : Table.find? k (w.heap.table r).entries with
      | none =>
        rw [hfound] at hrun
        exact .gone hfound (ih hrun)
      | some v =>
        rw [hfound] at hrun
        obtain ⟨index, w₁, hindex, hrun⟩ := Exec.bind_ok hrun
        obtain ⟨⟨⟩, w₂, hbind, hrun⟩ := Exec.bind_ok hrun
        cases hrun
        obtain ⟨hindex, rfl⟩ := Exec.ofAbort_ok hindex
        exact .more hfound hindex hbind

theorem vector_tells {r : VecRef} :
    Tells (fun p => Stmt.vectorOffer r bind p.1 p.2) (VectorOffer r bind) := by
  intro p w next w'
  constructor
  · intro hoffer
    induction hoffer with
    | ended hend => exact ⟨none, by rw [Stmt.runFrom_vectorOffer_succ, if_pos hend], rfl⟩
    | hole hin hhole _ ih =>
      rwa [Stmt.runFrom_vectorOffer_succ, if_neg hin, hhole, if_pos Option.isNone_none]
    | @more b i _ _ hin hfilled hbind =>
      refine ⟨some (i, b, i + 1), ?_, rfl⟩
      rw [Stmt.runFrom_vectorOffer_succ, if_neg hin, if_neg (by simpa using hfilled),
        Exec.runFrom_bind_of_ok hbind]
      rfl
  · rintro ⟨a, hrun, rfl⟩
    obtain ⟨b, i⟩ := p
    induction b generalizing i with
    | zero => cases hrun
    | succ b ih =>
      rw [Stmt.runFrom_vectorOffer_succ] at hrun
      split at hrun
      · cases hrun
        exact .ended ‹_›
      · rename_i hin
        split at hrun
        · rename_i hhole
          exact .hole hin (Option.isNone_iff_eq_none.mp hhole) (ih (i + 1) hrun)
        · rename_i hfilled
          obtain ⟨⟨⟩, w₁, hbind, hrun⟩ := Exec.bind_ok hrun
          cases hrun
          exact .more hin (by simpa using hfilled) hbind

theorem string_tells : Tells (Stmt.stringOffer bind) (StringOffer bind) := by
  intro p w next w'
  constructor
  · intro hoffer
    cases hoffer with
    | ended => exact ⟨none, rfl, rfl⟩
    | @more b rest _ _ hbind => exact ⟨some (b, rest), Exec.runFrom_bind_of_ok hbind, rfl⟩
  · rintro ⟨a, hrun, rfl⟩
    cases p with
    | nil =>
      cases hrun
      exact .ended
    | cons b rest =>
      obtain ⟨⟨⟩, w₁, hbind, hrun⟩ := Exec.bind_ok hrun
      cases hrun
      exact .more hbind

/-- What a loop reports that ran out after these rounds. -/
def flowAfter (outs : List Outcome) : Flow :=
  if outs.getLast?.map Outcome.flow = some .fallthrough then .fallthrough else .next

/-- Rounds that go on report no value, and of their flows only `fallthrough` is
not used up. -/
theorem afterLoop_getLastD {flows : Finset Flow}
    (h : ∀ out ∈ outs, out.Reports flows ∧ out.flow.stops = false) :
    (outs.getLastD .next).afterLoop = .ofFlow (flowAfter outs) := by
  rw [List.getLastD_eq_getLast?, flowAfter]
  cases hlast : outs.getLast? with
  | none => rfl
  | some out =>
    obtain ⟨hreports, hstops⟩ := h out (List.mem_of_getLast? hlast)
    obtain ⟨value, flow⟩ := out
    have hvalue : value = none := by
      cases value with
      | none => rfl
      | some v =>
        have hreturn : flow = .return := hreports.value rfl
        rw [hreturn] at hstops
        cases hstops
    subst hvalue
    cases flow with
    | «break» | «return» => cases hstops
    | next | loop | fallthrough => rfl

end Loop

namespace Stmt

open Loop

variable {fuel : Nat} {f : FrameRef} {s : Stmt} {w w' : World} {outs : List Outcome}
  {ending : Option Outcome} {o : Outcome}

/-! ## Loop statements -/

theorem singleVar_ok {vars : List Ident} {var : Ident}
    (h : (singleVar vars).runFrom w = (.ok var, w')) : vars = [var] ∧ w' = w := by
  unfold singleVar at h
  split at h
  · cases h
    exact ⟨rfl, rfl⟩
  · cases h

/-- A loop over a value took a course. -/
inductive ForCourse (fuel : Nat) (f : FrameRef) (valueVar : Option Ident) (body : Exec Outcome) :
    List Ident → Value → World → List Outcome → Option Outcome → World → Prop where
  | table {vars r w w' outs ending}
      (h : Loop.Course (TableOffer r (bindEntry f vars valueVar)) body (w.heap.table r).keys
        ((Exec.modifyTable r Table.enter).leaves w) outs ending w') :
      ForCourse fuel f valueVar body vars (.table r) w outs ending
        ((Exec.modifyTable r Table.leave).leaves w')
  | vector {var r w w' outs ending}
      (h : Loop.Course (VectorOffer r fun v => Exec.writeSlot f var.slot (v.coerce var.ty)) body
        (fuel, 0) w outs ending w') :
      ForCourse fuel f valueVar body [var] (.vector r) w outs ending w'
  | string {var bytes w w' outs ending}
      (h : Loop.Course (StringOffer (Exec.writeSlot f var.slot)) body bytes w outs ending w') :
      ForCourse fuel f valueVar body [var] (.str bytes) w outs ending w'

/-- A loop statement started in `w` took a course and left `w'`. -/
inductive LoopCourse (fuel : Nat) (f : FrameRef) (w : World) :
    Stmt → List Outcome → Option Outcome → World → Prop where
  | «while» {i test body outs ending w'}
      (h : Loop.Course (WhileOffer w.limits.maxLoopRounds (test.eval f)) (body.exec fuel f)
        (fuel, 0) ((Exec.visit i).leaves w) outs ending w') :
      LoopCourse fuel f w (.while i test body) outs ending w'
  | «for» {i vars valueVar target body v w₁ w' outs ending}
      (htarget : (target.eval f).runFrom ((Exec.visit i).leaves w) = (.ok v, w₁))
      (h : ForCourse fuel f valueVar (body.exec fuel f) vars v w₁ outs ending w') :
      LoopCourse fuel f w (.for i vars valueVar target body) outs ending w'

section

variable {valueVar : Option Ident} {body : Exec Outcome} {vars : List Ident} {v : Value}

theorem ForCourse.runFrom_forRounds
    (h : ForCourse fuel f valueVar body vars v w outs ending w') :
    (forRounds fuel f vars valueVar v body).runFrom w =
      (.ok (ending.getD (outs.getLastD .next)), w') := by
  cases h with
  | table h => exact runFrom_of_course (Stmt.table_drives _ _ _) table_tells h
  | vector h => exact runFrom_of_course (vector_drives _ _ _) vector_tells h
  | string h => exact runFrom_of_course (string_drives _ _) string_tells h

theorem exists_forCourse (hrun : (forRounds fuel f vars valueVar v body).runFrom w = (.ok o, w')) :
    ∃ outs ending w₁, ForCourse fuel f valueVar body vars v w outs ending w₁ := by
  unfold forRounds at hrun
  split at hrun
  · obtain ⟨h, w₁, hheap, hrun⟩ := Exec.bind_ok hrun
    obtain ⟨⟨⟩, w₂, henter, hrun⟩ := Exec.bind_ok hrun
    cases hheap
    cases henter
    obtain ⟨outs, ending, w₃, hcourse⟩ := exists_course (table_drives _ _ _) table_tells hrun
    exact ⟨outs, ending, _, .table hcourse⟩
  · obtain ⟨var, w₁, hvar, hrun⟩ := Exec.bind_ok hrun
    obtain ⟨rfl, rfl⟩ := singleVar_ok hvar
    obtain ⟨outs, ending, w₂, hcourse⟩ := exists_course (vector_drives _ _ _) vector_tells
      (p := (fuel, 0)) hrun
    exact ⟨outs, ending, w₂, .vector hcourse⟩
  · obtain ⟨var, w₁, hvar, hrun⟩ := Exec.bind_ok hrun
    obtain ⟨rfl, rfl⟩ := singleVar_ok hvar
    obtain ⟨outs, ending, w₂, hcourse⟩ := exists_course (string_drives _ _) string_tells hrun
    exact ⟨outs, ending, w₂, .string hcourse⟩
  · obtain ⟨ty, w₁, -, hrun⟩ := Exec.bind_ok hrun
    cases hrun

end

/-- A loop reports what its last round left over. -/
theorem LoopCourse.runFrom_exec (h : LoopCourse fuel f w s outs ending w') :
    (s.exec fuel f).runFrom w = (.ok (ending.getD (outs.getLastD .next)).afterLoop, w') := by
  cases h with
  | «while» h =>
    rw [exec]
    refine (Exec.runFrom_bind_of_ok rfl).trans ((Exec.runFrom_bind_of_ok rfl).trans ?_)
    exact Exec.runFrom_bind_of_ok (runFrom_of_course (while_drives _ _ _) while_tells h)
  | «for» htarget h =>
    rw [exec]
    refine (Exec.runFrom_bind_of_ok rfl).trans ((Exec.runFrom_bind_of_ok htarget).trans ?_)
    exact Exec.runFrom_bind_of_ok h.runFrom_forRounds

/-- A loop that comes to an end took a course. -/
theorem exists_loopCourse (hs : s.tag = .while ∨ s.tag = .for)
    (hrun : (s.exec fuel f).runFrom w = (.ok o, w')) :
    ∃ outs ending w₁, LoopCourse fuel f w s outs ending w₁ := by
  cases s with
  | «while» i test body =>
    rw [exec] at hrun
    obtain ⟨⟨⟩, w₁, hvisit, hrun⟩ := Exec.bind_ok hrun
    obtain ⟨w₂, w₃, hget, hrun⟩ := Exec.bind_ok hrun
    obtain ⟨out, w₄, hrounds, -⟩ := Exec.bind_ok hrun
    cases hvisit
    cases hget
    obtain ⟨outs, ending, w₅, hcourse⟩ := exists_course (while_drives _ _ _) while_tells
      (p := (fuel, 0)) hrounds
    exact ⟨outs, ending, w₅, .while hcourse⟩
  | «for» i vars valueVar target body =>
    rw [exec] at hrun
    obtain ⟨⟨⟩, w₁, hvisit, hrun⟩ := Exec.bind_ok hrun
    obtain ⟨v, w₂, htarget, hrun⟩ := Exec.bind_ok hrun
    obtain ⟨out, w₃, hrounds, -⟩ := Exec.bind_ok hrun
    cases hvisit
    obtain ⟨outs, ending, w₄, hcourse⟩ := exists_forCourse hrounds
    exact ⟨outs, ending, w₄, .for htarget hcourse⟩
  | _ => rcases hs with hs | hs <;> cases hs

/-- A loop that ran out reports no value, and `fallthrough` just when its last
round did. -/
theorem LoopCourse.runFrom_exec_of_runsOut (h : LoopCourse fuel f w s outs none w') :
    (s.exec fuel f).runFrom w = (.ok (.ofFlow (flowAfter outs)), w') := by
  have hrounds : ∃ flows, ∀ out ∈ outs, out.Reports flows ∧ out.flow.stops = false := by
    cases h with
    | @«while» _ _ body _ _ _ h =>
      exact ⟨_, h.reports (exec_yields_of (act_reports fuel f body))⟩
    | @«for» _ _ _ _ body _ _ _ _ _ _ h =>
      have hbody := exec_yields_of (act_reports fuel f body)
      cases h with
      | table h | vector h | string h => exact ⟨_, h.reports hbody⟩
  obtain ⟨flows, hrounds⟩ := hrounds
  rw [h.runFrom_exec, Option.getD_none, afterLoop_getLastD hrounds]

/-- A round that leaves a loop breaks or returns. -/
theorem LoopCourse.stops (h : LoopCourse fuel f w s outs ending w') :
    ∀ out ∈ ending, out.flow.stops = true := by
  cases h with
  | «while» h => exact h.stops
  | «for» _ h =>
    cases h with
    | table h | vector h | string h => exact h.stops

/-- What follows a statement in a list is executed when the statement reports
that execution goes on and the frame's result is not deferred. -/
theorem runFrom_execList_cons {w₀ : World} {rest : List Stmt} {flow : Flow}
    (h : (s.exec fuel f).runFrom ((Exec.setNext f s.id).leaves w₀) = (.ok (.ofFlow flow), w')) :
    (execList fuel f (s :: rest)).runFrom w₀ =
      if flow = .next ∧ (w'.frame f).delayed = none then (execList fuel f rest).runFrom w'
      else (.ok (.ofFlow flow), w') := by
  rw [execList]
  refine (Exec.runFrom_bind_of_ok rfl).trans ((Exec.runFrom_bind_of_ok h).trans ?_)
  refine (Exec.runFrom_bind_of_ok (Exec.runFrom_hasDelayed f w')).trans ?_
  cases hdelayed : (w'.frame f).delayed <;> cases flow <;> rfl

/-- **Loops that run out.** A loop that comes to an end took a course, and was
left by a round that broke or returned, or ran out: its test gave zero, or its
collection had no more to offer. In that case it reports no value; it reports
`fallthrough` if its last round did, which takes a loop whose syntax allows for
it, and that execution goes on otherwise. The rest of the list it stands in is
executed just when it reports this and the frame's result is not deferred. -/
theorem flow_of_loop_run_out (hs : s.tag = .while ∨ s.tag = .for) :
    (∀ o w', (s.exec fuel f).runFrom w = (.ok o, w') → ∃ outs ending,
      LoopCourse fuel f w s outs ending w' ∧
        ∀ out ∈ ending, out.flow.stops = true ∧ o = out.afterLoop) ∧
    ∀ outs w', LoopCourse fuel f w s outs none w' →
      (s.exec fuel f).runFrom w = (.ok (.ofFlow (flowAfter outs)), w') ∧
      (.fallthrough ∉ s.signals → flowAfter outs = .next) ∧
      ∀ rest w₀, (Exec.setNext f s.id).leaves w₀ = w →
        (execList fuel f (s :: rest)).runFrom w₀ =
          if flowAfter outs = .next ∧ (w'.frame f).delayed = none
          then (execList fuel f rest).runFrom w' else (.ok (.ofFlow (flowAfter outs)), w') := by
  constructor
  · intro o w' hrun
    obtain ⟨outs, ending, w₁, hcourse⟩ := exists_loopCourse hs hrun
    have hexec := hcourse.runFrom_exec
    rw [hrun] at hexec
    obtain ⟨ho, rfl⟩ := Prod.mk.inj hexec
    refine ⟨outs, ending, hcourse, fun out hout => ⟨hcourse.stops out hout, ?_⟩⟩
    rw [Option.mem_def.mp hout] at ho
    exact Except.ok.inj ho
  · intro outs w' hcourse
    have hexec := hcourse.runFrom_exec_of_runsOut
    refine ⟨hexec, fun hsignals => ?_, ?_⟩
    · -- what is reported is among the signals of the loop
      have hflow := (exec_yields_of (act_reports fuel f s) _ _ _ hexec).flow
      unfold flowAfter
      refine if_neg fun hlast => hsignals ?_
      rwa [flowAfter, if_pos hlast] at hflow
    · rintro rest w₀ rfl
      exact runFrom_execList_cons hexec

/-- A loop over two bytes: the first round falls through, the second does
nothing. -/
def fallingFirst : Stmt :=
  let c : Ident := ⟨"c", 0, .string, none⟩
  let isA : Expr := .binary .eq (.name c ⟨.string, .unknown⟩)
    (.constant (.str [97]) .unknown) ⟨.bool, .unknown⟩
  .for ⟨0, .unknown⟩ [c] none (.constant (.str [97, 98]) .unknown)
    (.cond ⟨1, .unknown⟩ isA (.fallthrough ⟨2, .unknown⟩) (.null ⟨3, .unknown⟩))

/-- It runs out, one of its rounds having reported `fallthrough`, and what
follows it is executed. -/
theorem flow_of_loop_run_out_fallingFirst :
    let w := ((World.start default default).addFrame 1 none).2
    .fallthrough ∈ fallingFirst.signals ∧ ∃ (outs : List Outcome) (w' : World),
      LoopCourse 1 ⟨0⟩ ((Exec.setNext ⟨0⟩ fallingFirst.id).leaves w) fallingFirst outs none w' ∧
      outs.map Outcome.flow = [.fallthrough, .next] ∧
      (execList 1 ⟨0⟩ [fallingFirst, .next ⟨4, .unknown⟩]).runFrom w =
        (execList 1 ⟨0⟩ [.next ⟨4, .unknown⟩]).runFrom w' := by
  intro w
  obtain ⟨w', hcourse⟩ : ∃ w', LoopCourse 1 ⟨0⟩ ((Exec.setNext ⟨0⟩ fallingFirst.id).leaves w)
      fallingFirst [.ofFlow .fallthrough, .next] none w' :=
    ⟨_, .for (Exec.runFrom_of_answer (r := .ok (.str [97, 98])) (by decide +kernel)) <| .string <|
      .goesOn (.more (Exec.runFrom_of_isOk (by decide +kernel)))
        (Exec.runFrom_of_answer (by decide +kernel)) rfl <|
      .goesOn (.more (Exec.runFrom_of_isOk (by decide +kernel)))
        (Exec.runFrom_of_answer (by decide +kernel)) rfl (.runsOut .ended)⟩
  obtain ⟨hexec, -, hlist⟩ := (flow_of_loop_run_out (.inr rfl)).2 _ _ hcourse
  refine ⟨by decide +kernel, _, w', hcourse, rfl, ?_⟩
  rw [hlist _ _ rfl, if_pos]
  obtain rfl := congrArg Prod.snd hexec
  exact ⟨rfl, by decide +kernel⟩

/-- A loop over one byte that falls through, and a line to print after it. -/
def spillingLoop : Doc.Unit where
  name := "spilling-loop"
  kind := .toplevel
  locals := []
  body := .list
    [.for [⟨"c", none, .unknown⟩] none (.const (.str "a")) .fallthrough,
      .print [.const (.str "after")]]

/-- The loop runs out and reports `fallthrough`; the line after it is not
printed. -/
theorem loop_run_out_spills : ∃ (script : Script) (i : StmtInfo) (loop after : Stmt),
    Script.load spillingLoop 0 = .ok script ∧ script.body = .list i [loop, after] ∧
    loop.tag = .for ∧ ∃ w w' : World, (∃ outs, LoopCourse 1 ⟨0⟩ w loop outs none w') ∧
      (loop.exec 1 ⟨0⟩).runFrom w = (.ok (.ofFlow .fallthrough), w') ∧
      ((script.run 1 ⟨0⟩).runFrom w).1 = .ok (.ofFlow .fallthrough) ∧
      ((script.run 1 ⟨0⟩).leaves w).output = #[] ∧
      ((after.exec 1 ⟨0⟩).leaves w).output = #["after"] := by
  let script := Script.build spillingLoop 0
  have hbody : ∃ i loop after, script.body = .list i [loop, after] ∧ loop.tag = .for ∧
      ((loop.exec 1 ⟨0⟩).runFrom ((World.start default default).addFrame 1 none).2).1 =
        .ok (.ofFlow .fallthrough) ∧
      ((after.exec 1 ⟨0⟩).leaves ((World.start default default).addFrame 1 none).2).output =
        #["after"] :=
    ⟨_, _, _, rfl, rfl, by decide +kernel, by decide +kernel⟩
  obtain ⟨i, loop, after, hbody, hloop, hflow, hafter⟩ := hbody
  have hrun := Exec.runFrom_of_answer hflow
  obtain ⟨outs, ending, w₁, hcourse⟩ := exists_loopCourse (.inr hloop) hrun
  have hexec := hcourse.runFrom_exec
  rw [hrun] at hexec
  obtain ⟨ho, rfl⟩ := Prod.mk.inj hexec
  -- a round that leaves the loop is used up or returns
  have hending : ending = none := by
    cases ending with
    | none => rfl
    | some out =>
      have hstops := hcourse.stops out rfl
      obtain ⟨value, flow⟩ := out
      cases flow <;> cases hstops <;> cases ho
  subst hending
  exact ⟨script, i, loop, after, Script.load_eq_ok_iff.mpr ⟨rfl, by decide +kernel⟩, hbody, hloop,
    _, _, ⟨outs, hcourse⟩, hrun, by decide +kernel, by decide +kernel, hafter⟩

end Stmt

end Vigil
