import Vigil.Proofs.Exec.Congruence

/-!
# Vigil.Proofs.Exec.Simulates — two runs from worlds that differ

Two computations are compared from worlds that differ in some agreed way: they
answer the same, and leave worlds that differ in that way again
(`Exec.Simulates`). What the worlds may differ in is a relation; the rules here
are those that hold for all of them. If the worlds agree on the heap and on the
limits, a statement and a variant of it may be compared in this way
(`Stmt.Alike.congruence`).
-/

namespace Vigil

namespace Exec

variable {α β : Type} {S : World → World → Prop}

/-- From related worlds `x` and `y` answer the same and leave related worlds. -/
def Simulates (S : World → World → Prop) (x y : Exec α) : Prop :=
  ∀ w v, S w v → (x.runFrom w).1 = (y.runFrom v).1 ∧ S (x.leaves w) (y.leaves v)

/-- Related worlds have the same heap. -/
def SharesHeap (S : World → World → Prop) : Prop := ∀ w v, S w v → w.heap = v.heap

namespace Simulates

theorem pure (a : α) : Simulates S (pure a) (pure a) := fun _ _ h => ⟨rfl, h⟩

theorem throw (s : Stop) : Simulates S (throw s : Exec α) (throw s) := fun _ _ h => ⟨rfl, h⟩

theorem ofStop (r : Except Stop α) : Simulates S (ofStop r) (ofStop r) := by
  cases r
  · exact throw _
  · exact pure _

theorem modify {g g' : World → World} (hg : ∀ w v, S w v → S (g w) (g' v)) :
    Simulates S (modify g) (modify g') := fun w v h => ⟨rfl, hg w v h⟩

theorem bind {x y : Exec α} {k l : α → Exec β} (hx : Simulates S x y)
    (hk : ∀ a, Simulates S (k a) (l a)) : Simulates S (x >>= k) (y >>= l) := by
  intro w v h
  obtain ⟨hanswer, hleaves⟩ := hx w v h
  unfold leaves at hleaves ⊢
  rw [runFrom_bind, runFrom_bind]
  rcases hxw : x.runFrom w with ⟨s | a, w₁⟩
  all_goals
    rcases hyv : y.runFrom v with ⟨s' | a', v₁⟩
    all_goals
      rw [hxw, hyv] at hanswer hleaves
      cases hanswer
  · exact ⟨rfl, hleaves⟩
  · exact hk a w₁ v₁ hleaves

theorem onFault {x y : Exec α} {recover recover' : Fault → Exec α} (hx : Simulates S x y)
    (hr : ∀ e, Simulates S (recover e) (recover' e)) :
    Simulates S (onFault x recover) (onFault y recover') := by
  intro w v h
  obtain ⟨hanswer, hleaves⟩ := hx w v h
  unfold leaves at hleaves ⊢
  rw [runFrom_onFault, runFrom_onFault]
  rcases hxw : x.runFrom w with ⟨(e | a | _) | a, w₁⟩
  all_goals
    rcases hyv : y.runFrom v with ⟨(e' | a' | _) | a', v₁⟩
    all_goals
      rw [hxw, hyv] at hanswer hleaves
      cases hanswer
  · exact hr e w₁ v₁ hleaves
  all_goals exact ⟨rfl, hleaves⟩

theorem ite {p : Prop} [Decidable p] {x y x' y' : Exec α} (hx : Simulates S x x')
    (hy : Simulates S y y') : Simulates S (if p then x else y) (if p then x' else y') := by
  split
  · exact hx
  · exact hy

/-- Computations that look at the world first. -/
theorem look {k l : World → Exec β} (hk : ∀ w v, S w v → Simulates S (k w) (l v)) :
    Simulates S (get >>= k) (get >>= l) := by
  intro w v h
  unfold leaves
  rw [runFrom_bind, runFrom_bind, runFrom_get, runFrom_get]
  exact hk w v h w v h

theorem heap_bind (hS : SharesHeap S) {k l : Heap → Exec β}
    (hk : ∀ h, Simulates S (k h) (l h)) : Simulates S (Exec.heap >>= k) (Exec.heap >>= l) := by
  intro w v h
  have hrun : ∀ (m : Heap → Exec β) (u : World),
      (Exec.heap >>= m).runFrom u = (m u.heap).runFrom u := fun _ _ => rfl
  unfold leaves
  rw [hrun, hrun, hS w v h]
  exact hk v.heap w v h

theorem composes (hS : SharesHeap S) : Composes (Simulates S) where
  bind := bind
  onFault := onFault
  pure := pure
  fault _ := throw _
  abort _ := throw _
  heap := heap_bind hS pure

end Simulates

end Exec

/-! ## Loops -/

namespace Stmt

open Exec

variable {S : World → World → Prop} {body body' : Exec Outcome}

/-- A `while` loop, where both worlds have the same limits. -/
theorem whileLoop_simulates (hS : SharesHeap S) (hlimits : ∀ w v, S w v → w.limits = v.limits)
    {test test' : Exec Value} (ht : Simulates S test test') (hb : Simulates S body body')
    (fuel : Nat) :
    Simulates S
      (get >>= fun w => whileRounds w.limits.maxLoopRounds test body fuel 0 .next)
      (get >>= fun w => whileRounds w.limits.maxLoopRounds test' body' fuel 0 .next) := by
  refine .look fun w v h => ?_
  rw [hlimits w v h]
  exact (Simulates.composes hS).whileRounds (.throw _) ht hb _ _

theorem printLine_simulates (hS : SharesHeap S)
    (hprint : ∀ line, Simulates S
      (modify fun w => { w with output := w.output.push line } : Exec Unit)
      (modify fun w => { w with output := w.output.push line })) (vals : List Value) :
    Simulates S (printLine vals) (printLine vals) :=
  .heap_bind hS fun _ => .bind (.ofStop _) fun _ => hprint _

/-! ## Statements -/

/-- Related worlds are alike in all that statements of the frame `f` look at
before they run their parts, and go on being related by what these do. -/
structure Alike (S : World → World → Prop) (f : FrameRef) : Prop where
  heap : SharesHeap S
  now : ∀ w v, S w v → w.now = v.now
  limits : ∀ w v, S w v → w.limits = v.limits
  store : ∀ {α : Type} {x : Exec α}, Local f x → Simulates S x x
  visit : ∀ i, Simulates S (visit i) (visit i)
  setNext : ∀ s, Simulates S (setNext f s) (setNext f s)
  raise : ∀ name args, Simulates S (raise name args) (raise name args)
  print : ∀ line, Simulates S
    (modify fun w => { w with output := w.output.push line } : Exec Unit)
    (modify fun w => { w with output := w.output.push line })

variable {f : FrameRef} {fuel : Nat}

theorem Alike.rules (a : Alike S f) : StoreRules f (Simulates S) where
  bind := .bind
  onFault := .onFault
  fault _ := .throw _
  clock hk := .look fun w v h => hk w v (a.now w v h)
  setNext := a.setNext
  raise := a.raise
  table r g _ := a.store (.modifyTable r g)
  store _ hx := a.store hx

/-- A statement and its variant. -/
theorem Alike.congruence (a : Alike S f) {P : Stmt → Prop} {variant : Stmt → Stmt}
    (parts : ∀ s, P s → ∀ t ∈ s.parts, P t) (info : ∀ s, (variant s).info = s.info)
    (shape : ∀ s, s.tag ≠ .list → s.tag ≠ .when → variant s = s.mapParts variant)
    (list : ∀ i body, P (.list i body) →
      (∀ t ∈ body, Simulates S (exec fuel f t) (exec fuel f (variant t))) →
      Simulates S (act fuel f (.list i body)) (act fuel f (variant (.list i body))))
    (install : ∀ s, P s → s.tag = .when →
      Simulates S (act fuel f s) (act fuel f (variant s))) :
    Congruence P variant fuel fuel f (Simulates S) where
  toRules := a.rules.toRules
  parts s hs _ := parts s hs
  info := info
  shape := shape
  visit s _ := a.visit s.info
  eval _ _ e _ := a.rules.eval e
  addTo _ e _ := a.store (e.addTo_local f)
  deleteFrom _ e _ := a.store (e.deleteFrom_local f)
  list i body hs hbody := list i body hs fun t ht => hbody t ht (parts _ hs t ht)
  install := install
  print _ args _ := .bind (a.rules.evalList args) fun _ => printLine_simulates a.heap a.print _
  whileLoop htest hb := whileLoop_simulates a.heap a.limits htest hb fuel
  vectorLoop r _ _ _ hbind hb := (Simulates.composes a.heap).vectorRounds (.throw _) r hbind hb _ _

end Stmt

end Vigil
