import Vigil.Proofs.Exec.Edits

/-!
# Vigil.Proofs.Exec.Guarantee — what every execution that comes back guarantees

An execution comes back with an outcome or with an error of the script; an
abort, or a budget that ran out, is neither. A relation between the worlds
before and after that is a preorder is a guarantee of the statements of some
kind when it holds of each single change, of the start of a statement, of a
whole `when`, and of a loop over a table whose body keeps to it
(`Stmt.Guarantee`). It then holds of every execution of such a statement that
comes back (`Stmt.Guarantee.exec`).

The loop over a table is left to the relation because entering and leaving it
only cancel out over the whole loop. A relation that does not look at the heap
gets it for free (`Stmt.Guarantee.of_aside`).
-/

namespace Vigil

open Relation (ReflTransGen)

variable {f : FrameRef} {α : Type} {P : Stmt → Prop} {fuel : Nat}

/-! ## Computations that come back -/

namespace Exec

variable {α β : Type} {f : FrameRef} {R : World → World → Prop}

/-- Whenever `x` comes back, the worlds before and after are related. -/
def Respects (R : World → World → Prop) (x : Exec α) : Prop :=
  ∀ w, cameBack (x.runFrom w).1 → R w (x.leaves w)

namespace Respects

theorem of_eq {x : Exec α} (hx : Respects R x) {w w' : World} {r : Except Stop α}
    (h : x.runFrom w = (r, w')) (hr : cameBack r) : R w w' := by
  have hR := hx w
  unfold leaves at hR
  rw [h] at hR
  exact hR hr

theorem modify {g : World → World} (hg : ∀ w, R w (g w)) : Respects R (modify g : Exec PUnit) :=
  fun w _ => hg w

variable [IsPreorder World R]

theorem throw (s : Stop) : Respects R (throw s : Exec α) := fun w _ => refl_of R w

theorem pure (a : α) : Respects R (pure a : Exec α) := fun w _ => refl_of R w

theorem bind {x : Exec α} {k : α → Exec β} (hx : Respects R x) (hk : ∀ a, Respects R (k a)) :
    Respects R (x >>= k) := by
  intro w hback
  unfold leaves
  rw [runFrom_bind] at hback ⊢
  rcases h : x.runFrom w with ⟨s | a, w₁⟩
  · rw [h] at hback
    have hs : cameBack (.error s : Except Stop α) := by
      revert hback
      cases s <;> exact fun hback => hback
    exact hx.of_eq h hs
  · rw [h] at hback
    exact trans_of R (hx.of_eq h rfl) (hk a w₁ hback)

theorem onFault {x : Exec α} {recover : Fault → Exec α} (hx : Respects R x)
    (hr : ∀ e, Respects R (recover e)) : Respects R (onFault x recover) := by
  intro w hback
  unfold leaves
  rw [runFrom_onFault] at hback ⊢
  rcases h : x.runFrom w with ⟨(e | a | _) | a, w₁⟩
  · rw [h] at hback
    exact trans_of R (hx.of_eq h rfl) (hr e w₁ hback)
  all_goals
    rw [h] at hback
    exact hx.of_eq h hback

theorem sequential : Sequential (Respects R) where
  still hx w _ := by
    rw [hx w]
    exact refl_of R w
  bind := bind
  onFault := onFault

/-- What expressions do is respected when edits are. -/
theorem of_edits {x : Exec α} (hx : Edits f x) (hedit : ∀ w w', World.Edit f w w' → R w w') :
    Respects R x := by
  intro w _
  have hall : ∀ w', ReflTransGen (World.Edit f) w w' → R w w' := by
    intro w' h
    induction h with
    | refl => exact refl_of R w
    | tail _ hstep ih => exact trans_of R ih (hedit _ _ hstep)
  exact hall _ (hx w)

end Respects

end Exec

/-! ## Guarantees -/

namespace Stmt

open Exec (Respects Edits)

variable {s : Stmt}

/-- A relation between the worlds before and after that all that statements do
in the frame `f` keeps to, apart from starting and from what `when`s do. -/
structure Bounds (fuel : Nat) (f : FrameRef) (R : World → World → Prop) : Prop where
  edit : ∀ w w', World.Edit f w w' → R w w'
  next : ∀ (w : World) (i : StmtId), R w (w.modifyFrame f fun fr => { fr with nextStmt := some i })
  print : ∀ (w : World) (line : String), R w { w with output := w.output.push line }
  raise : ∀ (w : World) (e : Event), R w { w with events := w.events.push e }
  overTable : ∀ (r : TableRef) (vars : List Ident) (valueVar : Option Ident)
    (body : Exec Outcome), Respects R body →
      Respects R (forRounds fuel f vars valueVar (.table r) body)

namespace Bounds

variable {fuel : Nat} {f : FrameRef} {R : World → World → Prop} [IsPreorder World R]

theorem edits {x : Exec α} (g : Bounds fuel f R) (hx : Edits f x) : Respects R x :=
  .of_edits hx g.edit

/-- What a statement does after it started keeps to the relation when its parts
do. -/
theorem act (g : Bounds fuel f R) (htag : s.tag ≠ .when)
    (hparts : ∀ t ∈ s.parts, Respects R (exec fuel f t)) : Respects R (act fuel f s) := by
  have hdone : Respects R (pure Outcome.next) := .pure _
  have hargs (es : List Expr) : Respects R (Expr.evalList f es) :=
    g.edits (Expr.evalList_edits f es)
  refine Respects.sequential.act (fun i => .modify fun w => g.next w i)
    (fun e _ => g.edits (e.eval_edits f)) (fun _ _ _ => g.edits (.writeSlot _ _))
    (fun r _ _ _ _ hb => g.overTable r _ _ _ hb) (fun hown => ?_) hparts
  cases s with
  | print i args =>
    rw [Stmt.act]
    refine .bind (hargs args) fun vals => .bind ?_ fun _ => hdone
    exact .bind (g.edits .heap) fun _ => .bind (g.edits (.ofStop _)) fun _ =>
      .modify fun w => g.print w _
  | event i name args =>
    rw [Stmt.act]
    exact .bind (hargs args) fun vals => .bind (.modify fun w => g.raise w _) fun _ => hdone
  | add i target =>
    rw [Stmt.act]
    exact .bind (g.edits (target.addTo_edits f)) fun _ => hdone
  | delete i target =>
    rw [Stmt.act]
    exact .bind (g.edits (target.deleteFrom_edits f)) fun _ => hdone
  | init i idents =>
    rw [Stmt.act]
    exact .bind (g.edits (giveFresh_edits idents)) fun _ => hdone
  | «when» i test body timeout timeoutBody isReturn => exact absurd rfl htag
  | _ => simp [tag, ownWork] at hown

end Bounds

/-- A relation that everything the statements of kind `P` do in the frame `f`
keeps to. -/
structure Guarantee (P : Stmt → Prop) (fuel : Nat) (f : FrameRef) (R : World → World → Prop) :
    Prop extends Bounds fuel f R where
  parts : ∀ s, P s → ∀ t ∈ s.parts, P t
  start : ∀ s, P s → s.tag ≠ .when →
    ∀ w : World, R w { w with journal := .start s.id w.now :: w.journal }
  wait : ∀ s, P s → s.tag = .when → Respects R (exec fuel f s)

/-- Whatever a statement does until it comes back keeps to its guarantees. -/
theorem Guarantee.exec {R : World → World → Prop} [IsPreorder World R] (g : Guarantee P fuel f R)
    (hs : P s) :
    Respects R (exec fuel f s) := by
  induction s using tree_induction with
  | h s ih =>
    by_cases htag : s.tag = .when
    · exact g.wait s hs htag
    · rw [exec_eq]
      refine .bind (.modify fun w => g.start s hs htag w) fun _ => g.act htag fun t ht => ?_
      exact ih t (s.parts_subset_children ht) (g.parts s hs t ht)

end Stmt

/-! ## Guarantees that do not look at the heap -/

/-- Only collections, frames, printed lines and raised events differ. -/
def World.Aside (w w' : World) : Prop :=
  ∃ heap frames output events,
    w' = { w with heap := heap, frames := frames, output := output, events := events }

theorem World.Edit.aside {w w' : World} (h : Edit f w w') : Aside w w' := by
  cases h <;> exact ⟨_, _, _, _, rfl⟩

theorem Exec.Edits.aside {x : Exec α} (hx : Edits f x) (w : World) : w.Aside (x.leaves w) := by
  have hall : ∀ w', ReflTransGen (World.Edit f) w w' → w.Aside w' := by
    intro w' h
    induction h with
    | refl => exact ⟨_, _, _, _, rfl⟩
    | tail _ hstep ih =>
      obtain ⟨_, _, _, _, rfl⟩ := ih
      obtain ⟨_, _, _, _, rfl⟩ := hstep.aside
      exact ⟨_, _, _, _, rfl⟩
  exact hall _ (hx w)

namespace Stmt

open Exec (Respects)

variable {R : World → World → Prop} [IsPreorder World R] {f : FrameRef}

/-- A relation that holds wherever only the heap, frames, output and events
change. -/
theorem Bounds.of_aside (haside : ∀ w w' : World, w.Aside w' → R w w') (fuel : Nat) :
    Bounds fuel f R where
  edit w w' h := haside w w' h.aside
  next w _ := haside w _ ⟨_, _, _, _, rfl⟩
  print w _ := haside w _ ⟨_, _, _, _, rfl⟩
  raise w _ := haside w _ ⟨_, _, _, _, rfl⟩
  overTable r _ _ _ hb := by
    -- entering and leaving is nothing but a change of the heap
    refine Respects.sequential.overTable (fun g _ w _ => haside w _ ⟨_, _, _, _, rfl⟩)
      (fun _ _ v => ?_) hb
    exact .of_edits (.writeSlot _ v) fun w w' h => haside w w' h.aside

/-- For such a relation the starts of statements and the `when`s are left to
show. -/
theorem Guarantee.of_aside
    (haside : ∀ w w' : World, w.Aside w' → R w w')
    (hparts : ∀ s, P s → ∀ t ∈ s.parts, P t)
    (hstart : ∀ s, P s → s.tag ≠ .when →
      ∀ w : World, R w { w with journal := .start s.id w.now :: w.journal })
    (hwait : ∀ s, P s → s.tag = .when → Respects R (s.exec fuel f)) : Guarantee P fuel f R :=
  { Bounds.of_aside haside fuel with parts := hparts, start := hstart, wait := hwait }

end Stmt

end Vigil
