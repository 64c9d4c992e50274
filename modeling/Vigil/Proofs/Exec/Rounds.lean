import Vigil.Proofs.Exec.Local

/-!
# Vigil.Proofs.Exec.Rounds — the course of a `while` loop under a limit

A loop under a limit of `n` rounds goes on from round to round (`Stmt.Rounds`)
until it ends in one of five ways (`Stmt.Course`): its test stops or says no,
its body stops or leaves the loop, or the test says yes once more after `n`
rounds. In each of them the body ran at most `n` times
(`Stmt.whileRounds_course`). The loop itself raises the limit in the last way
only, so that its error is either this or one that its body passed on
(`Stmt.whileRounds_limit_iff`).
-/

namespace Vigil.Stmt

open Exec (Local)

variable {n k fuel : Nat} {test : Exec Value} {body : Exec Outcome} {w w₁ w' : World}
  {last : Outcome} {r : Except Stop Outcome}

/-- From `w`, the test said yes `k` times, and each time the body ran and let
the loop go on. -/
inductive Rounds (test : Exec Value) (body : Exec Outcome) (w : World) :
    Nat → World → Outcome → Prop where
  | start : Rounds test body w 0 w .next
  | next {k : Nat} {w₁ w₂ w₃ : World} {last out : Outcome} {v : Value}
      (h : Rounds test body w k w₁ last) (htest : test.runFrom w₁ = (.ok v, w₂))
      (hv : v.isZero = false) (hbody : body.runFrom w₂ = (.ok out, w₃))
      (hout : out.flow.stops = false) : Rounds test body w (k + 1) w₃ out

/-- After `k` rounds the test says yes. -/
def Due (test : Exec Value) (body : Exec Outcome) (w : World) (k : Nat) (w' : World) : Prop :=
  ∃ w₁ last v, Rounds test body w k w₁ last ∧ test.runFrom w₁ = (.ok v, w') ∧ v.isZero = false

/-- How a loop under a limit of `n` rounds ends, and how often its body ran. -/
inductive Course (n : Nat) (test : Exec Value) (body : Exec Outcome) (w : World) :
    Nat → Except Stop Outcome → World → Prop where
  | testStops {k w₁ w' last s}
      (h : Rounds test body w k w₁ last) (htest : test.runFrom w₁ = (.error s, w')) :
      Course n test body w k (.error s) w'
  | testFails {k w₁ w' last v}
      (h : Rounds test body w k w₁ last) (htest : test.runFrom w₁ = (.ok v, w'))
      (hv : v.isZero = true) : Course n test body w k (.ok last) w'
  | limit {w' : World} (h : Due test body w n w') :
      Course n test body w n (.error (.fault (.iterationLimit n))) w'
  | bodyStops {k w₁ w' s} (h : Due test body w k w₁)
      (hbody : body.runFrom w₁ = (.error s, w')) : Course n test body w (k + 1) (.error s) w'
  | leaves {k w₁ w' out} (h : Due test body w k w₁)
      (hbody : body.runFrom w₁ = (.ok out, w')) (hout : out.flow.stops = true) :
      Course n test body w (k + 1) (.ok out) w'

/-- One round more, when there is budget for it. -/
theorem runFrom_whileRounds_succ {rounds : Nat} :
    (whileRounds (some n) test body (fuel + 1) rounds last).runFrom w =
      match test.runFrom w with
      | (.error s, w₁) => (.error s, w₁)
      | (.ok v, w₁) =>
        if v.isZero then (.ok last, w₁)
        else if n ≤ rounds then (.error (.fault (.iterationLimit n)), w₁)
        else match body.runFrom w₁ with
          | (.error s, w₂) => (.error s, w₂)
          | (.ok out, w₂) =>
            if out.flow.stops then (.ok out, w₂)
            else (whileRounds (some n) test body fuel (rounds + 1) out).runFrom w₂ := by
  rw [whileRounds, Exec.runFrom_bind]
  rcases test.runFrom w with ⟨s | v, w₁⟩
  · rfl
  · dsimp only
    split
    · rfl
    · split
      · rfl
      · rw [Exec.runFrom_bind]
        rcases body.runFrom w₁ with ⟨s | out, w₂⟩
        · rfl
        · dsimp only
          split <;> rfl

/-- The loop takes its rounds one after the other. -/
theorem Rounds.runFrom_whileRounds (h : Rounds test body w k w₁ last) (hk : k ≤ n) (fuel : Nat) :
    (whileRounds (some n) test body (fuel + k) 0 .next).runFrom w =
      (whileRounds (some n) test body fuel k last).runFrom w₁ := by
  induction h generalizing fuel with
  | start => rfl
  | @next k w₁ w₂ w₃ last out v h htest hv hbody hout ih =>
    rw [← Nat.add_assoc, Nat.add_right_comm, ih (by omega), runFrom_whileRounds_succ, htest]
    have hmore : ¬ n ≤ k := by omega
    simp only [hv, hbody, hout, hmore, if_false, Bool.false_eq_true]

/-- From any round on, the loop ends in one of the five ways. -/
theorem course_of_rounds (h : Rounds test body w k w₁ last) (hk : k ≤ n) (hfuel : n < fuel + k)
    (hrun : (whileRounds (some n) test body fuel k last).runFrom w₁ = (r, w')) :
    ∃ runs, runs ≤ n ∧ Course n test body w runs r w' := by
  induction fuel generalizing k w₁ last with
  | zero => omega
  | succ fuel ih =>
    rw [runFrom_whileRounds_succ] at hrun
    rcases htest : test.runFrom w₁ with ⟨s | v, w₂⟩
    · rw [htest] at hrun
      cases hrun
      exact ⟨k, hk, .testStops h htest⟩
    · rw [htest] at hrun
      dsimp only at hrun
      split at hrun
      · rename_i hv
        cases hrun
        exact ⟨k, hk, .testFails h htest hv⟩
      · rename_i hv
        have hdue : Due test body w k w₂ := ⟨w₁, last, v, h, htest, by simpa using hv⟩
        split at hrun
        · rename_i hmax
          obtain rfl : k = n := by omega
          cases hrun
          exact ⟨k, hk, .limit hdue⟩
        · rcases hbody : body.runFrom w₂ with ⟨s | out, w₃⟩
          · rw [hbody] at hrun
            cases hrun
            exact ⟨k + 1, by omega, .bodyStops hdue hbody⟩
          · rw [hbody] at hrun
            dsimp only at hrun
            split at hrun
            · rename_i hout
              cases hrun
              exact ⟨k + 1, by omega, .leaves hdue hbody hout⟩
            · rename_i hout
              have hnext := h.next htest (by simpa using hv) hbody (by simpa using hout)
              exact ih hnext (by omega) (by omega) hrun

/-- A loop runs its body at most `n` times. -/
theorem whileRounds_course (hfuel : n < fuel)
    (hrun : (whileRounds (some n) test body fuel 0 .next).runFrom w = (r, w')) :
    ∃ runs, runs ≤ n ∧ Course n test body w runs r w' :=
  course_of_rounds .start (Nat.zero_le n) hfuel hrun

/-- The test says yes once more after `n` rounds. -/
theorem runFrom_whileRounds_of_due (h : Due test body w n w') (hfuel : n < fuel) :
    (whileRounds (some n) test body fuel 0 .next).runFrom w =
      (.error (.fault (.iterationLimit n)), w') := by
  obtain ⟨w₁, last, v, hrounds, htest, hv⟩ := h
  obtain ⟨m, rfl⟩ : ∃ m, fuel = m + 1 + n := ⟨fuel - n - 1, by omega⟩
  rw [hrounds.runFrom_whileRounds (Nat.le_refl n), runFrom_whileRounds_succ, htest]
  simp [hv]

/-- The body stops after fewer rounds. -/
theorem runFrom_whileRounds_of_bodyStops {s : Stop} (h : Due test body w k w₁) (hk : k < n)
    (hbody : body.runFrom w₁ = (.error s, w')) (hfuel : n < fuel) :
    (whileRounds (some n) test body fuel 0 .next).runFrom w = (.error s, w') := by
  obtain ⟨w₀, last, v, hrounds, htest, hv⟩ := h
  obtain ⟨m, rfl⟩ : ∃ m, fuel = m + 1 + k := ⟨fuel - k - 1, by omega⟩
  have hmore : ¬ n ≤ k := by omega
  rw [hrounds.runFrom_whileRounds (Nat.le_of_lt hk), runFrom_whileRounds_succ, htest]
  simp only [hv, hbody, hmore, if_false, Bool.false_eq_true]

/-- The limit is raised by the loop, when its test says yes once more after `n`
rounds, or passed on from its body. -/
theorem whileRounds_limit_iff {f : FrameRef} (htest : Local f test) (hfuel : n < fuel) :
    (whileRounds (some n) test body fuel 0 .next).runFrom w =
        (.error (.fault (.iterationLimit n)), w') ↔
      Due test body w n w' ∨ ∃ k < n, ∃ w₁, Due test body w k w₁ ∧
        body.runFrom w₁ = (.error (.fault (.iterationLimit n)), w') := by
  constructor
  · intro hrun
    obtain ⟨runs, hruns, hcourse⟩ := whileRounds_course hfuel hrun
    generalize hr : (Except.error (.fault (.iterationLimit n)) : Except Stop Outcome) = r at hcourse
    cases hcourse with
    | testStops h hstops =>
      cases hr
      exact absurd trivial (htest.not_ofLoop hstops)
    | testFails => cases hr
    | limit h => exact .inl h
    | bodyStops h hbody =>
      cases hr
      exact .inr ⟨_, hruns, _, h, hbody⟩
    | leaves => cases hr
  · rintro (h | ⟨k, hk, w₁, h, hbody⟩)
    · exact runFrom_whileRounds_of_due h hfuel
    · exact runFrom_whileRounds_of_bodyStops h hk hbody hfuel

end Vigil.Stmt
