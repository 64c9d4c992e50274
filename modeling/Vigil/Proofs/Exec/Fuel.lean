import Vigil.Proofs.Exec.Congruence

/-!
# Vigil.Proofs.Exec.Fuel — a larger budget changes no answer

Only `while` loops and loops over vectors use up their budget, and they look at
it for nothing but to give up. So an execution that did not run out ends the
same way under every larger budget (`Stmt.exec_agrees`), and so do a look at a
trigger and the looks at a batch of them.

`Exec.Agrees` is the relation the proofs are about: two computations, where the
second does what the first does unless the first runs out. It goes through
sequences, handlers and loops, so it is a congruence of statements.
-/

namespace Vigil

namespace Exec

variable {α β : Type}

/-- The run came to an end: it did not run out of its budget. -/
def ended : Except Stop α → Bool
  | .error .exhausted => false
  | _ => true

/-- Wherever `x` comes to an end, `y` comes to the same one. -/
def Agrees (x y : Exec α) : Prop := ∀ w, ended (x.runFrom w).1 → y.runFrom w = x.runFrom w

namespace Agrees

theorem refl (x : Exec α) : Agrees x x := fun _ _ => rfl

/-- What runs out at once says nothing. -/
theorem exhausted (y : Exec α) : Agrees (throw .exhausted) y := by
  intro w h
  cases h

theorem bind {x y : Exec α} {k l : α → Exec β} (hx : Agrees x y) (hk : ∀ a, Agrees (k a) (l a)) :
    Agrees (x >>= k) (y >>= l) := by
  intro w hend
  rw [runFrom_bind] at hend
  rw [runFrom_bind, runFrom_bind]
  rcases h : x.runFrom w with ⟨s | a, w₁⟩
  · have hs : ended (x.runFrom w).1 := by
      rw [h] at hend ⊢
      revert hend
      cases s <;> exact fun hend => hend
    rw [hx w hs, h]
  · have hok : ended (x.runFrom w).1 := by rw [h]; rfl
    rw [h] at hend
    rw [hx w hok, h]
    exact hk a w₁ hend

/-- What follows in both is the same. -/
theorem bind_left {x y : Exec α} (hx : Agrees x y) (k : α → Exec β) :
    Agrees (x >>= k) (y >>= k) :=
  bind hx fun _ => refl _

/-- What comes first in both is the same. -/
theorem bind_right (x : Exec α) {k l : α → Exec β} (hk : ∀ a, Agrees (k a) (l a)) :
    Agrees (x >>= k) (x >>= l) :=
  bind (refl x) hk

theorem onFault {x y : Exec α} (hx : Agrees x y) (recover : Fault → Exec α) :
    Agrees (onFault x recover) (onFault y recover) := by
  intro w hend
  rw [runFrom_onFault] at hend
  rw [runFrom_onFault, runFrom_onFault]
  have hended : ended (x.runFrom w).1 := by
    rcases h : x.runFrom w with ⟨(e | a | _) | a, w₁⟩
    · rfl
    · rfl
    · rw [h] at hend
      exact hend
    · rfl
  rw [hx w hended]

end Agrees

end Exec

namespace Stmt

open Exec (Agrees)

/-! ## Loops -/

section Loops

variable {body body' : Exec Outcome} {fuel fuel' : Nat}

theorem whileRounds_agrees (limit : Option Nat) (test : Exec Value) (hb : Agrees body body')
    (hfuel : fuel ≤ fuel') (rounds : Nat) (last : Outcome) :
    Agrees (whileRounds limit test body fuel rounds last)
      (whileRounds limit test body' fuel' rounds last) := by
  induction fuel generalizing fuel' rounds last with
  | zero => exact .exhausted _
  | succ fuel ih =>
    obtain ⟨m, rfl⟩ := Nat.exists_eq_add_one_of_ne_zero (n := fuel') (by omega)
    have hround : ∀ n, Agrees
        (body >>= fun out =>
          if out.flow.stops then pure out else whileRounds limit test body fuel n out)
        (body' >>= fun out =>
          if out.flow.stops then pure out else whileRounds limit test body' m n out) := by
      intro n
      refine .bind hb fun out => ?_
      split
      · exact .refl _
      · exact ih (by omega) n out
    unfold whileRounds
    refine .bind_right _ fun v => ?_
    split
    · exact .refl _
    · split
      · split
        · exact .refl _
        · exact hround _
      · exact hround _

theorem vectorRounds_agrees (r : VecRef) (bind : Value → Exec Unit) (hb : Agrees body body')
    (hfuel : fuel ≤ fuel') (i : Nat) (last : Outcome) :
    Agrees (vectorRounds r bind body fuel i last) (vectorRounds r bind body' fuel' i last) := by
  induction fuel generalizing fuel' i last with
  | zero => exact .exhausted _
  | succ fuel ih =>
    obtain ⟨m, rfl⟩ := Nat.exists_eq_add_one_of_ne_zero (n := fuel') (by omega)
    rw [vectorRounds, vectorRounds]
    refine .bind_right _ fun h => ?_
    dsimp only
    split
    · exact .refl _
    · split
      · exact ih (by omega) _ _
      · refine .bind_right _ fun _ => .bind hb fun out => ?_
        split
        · exact .refl _
        · exact ih (by omega) _ _

end Loops

/-! ## Statements -/

variable {fuel fuel' : Nat}

theorem rules_agrees (f : FrameRef) : StoreRules f Agrees where
  bind := .bind
  onFault hx _ := .onFault hx _
  fault _ := .refl _
  clock hk := .bind_right _ fun w => hk w w rfl
  setNext _ := .refl _
  raise _ _ := .refl _
  table _ _ _ := .refl _
  store _ _ := .refl _

/-- More fuel changes no answer of a statement. -/
theorem exec_agrees (hfuel : fuel ≤ fuel') (f : FrameRef) (s : Stmt) :
    Agrees (s.exec fuel f) (s.exec fuel' f) := by
  have hcongruence : Congruence (fun _ => True) (fun s => s) fuel fuel' f Agrees :=
    (rules_agrees f).congruence (fun _ _ _ _ => trivial) (fun _ => .refl _) (.refl _)
      (fun _ _ _ _ => .refl _) (fun _ _ _ => .refl _)
      (fun _ hb => .bind_right _ fun _ => whileRounds_agrees _ _ hb hfuel _ _)
      (fun r _ _ _ _ hb => vectorRounds_agrees r _ hb hfuel _ _)
  exact hcongruence.exec trivial

end Stmt

/-! ## Triggers -/

namespace World

open Exec (Agrees)

variable {fuel fuel' : Nat}

theorem settle_agrees (hfuel : fuel ≤ fuel') (t : TriggerRef) (state : TriggerState)
    (c : Captured) : Agrees (settle fuel t state c) (settle fuel' t state c) := by
  have hrun : ∀ body, Agrees (runBody fuel t c.frame body) (runBody fuel' t c.frame body) := by
    intro body
    refine .bind_right _ fun w => .onFault ?_ _
    exact .bind_left (Stmt.exec_agrees hfuel c.frame body) _
  unfold settle
  refine .bind_right _ fun _ => ?_
  split
  · exact .refl _
  · exact .bind_right _ fun _ => hrun _

/-- More fuel changes no answer of a look. -/
theorem check_agrees (hfuel : fuel ≤ fuel') (t : TriggerRef) :
    Agrees (check fuel t) (check fuel' t) := by
  unfold check
  refine .bind_right _ fun w => ?_
  dsimp only
  split
  · refine .bind_right _ fun held => .bind_right _ fun _ => ?_
    split
    · exact .bind_left (settle_agrees hfuel t .fired _) _
    · exact .refl _
  · exact .refl _

end World

end Vigil
