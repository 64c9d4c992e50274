import Vigil.Proofs.Exec.Guarantee
import Vigil.Proofs.Exec.Local

/-!
# Vigil.Proofs.Exec.Congruence — a statement and a variant of it, side by side

Two executions are compared: that of a statement, and that of a variant of the
statement under a budget of its own. The variant differs in its lists and in its
`when`s, and apart from that only in its parts (`Stmt.mapParts`). A relation
between computations that goes through sequences and handlers
(`Stmt.Rules`) relates the two executions as soon as it relates what is
particular to a variant, the expressions that are evaluated, and the loops that
look at the budget, given that it relates their bodies
(`Stmt.Congruence.exec`). All that is left besides is done the same way by both.
Most relations go through everything that stays within the heap and the frame,
whatever the expression (`Stmt.StoreRules`).
-/

namespace Vigil.Stmt

open Exec

/-! ## Rules -/

/-- A relation between computations that goes through what statements do in the
frame `f` besides entering the journal, evaluating expressions and running their
parts. -/
structure Rules (f : FrameRef) (Rel : {α : Type} → Exec α → Exec α → Prop) : Prop extends
    Composes Rel where
  clock : ∀ {α : Type} {k l : World → Exec α}, (∀ w v, w.now = v.now → Rel (k w) (l v)) →
    Rel (get >>= k) (get >>= l)
  setNext : ∀ s, Rel (setNext f s) (setNext f s)
  raise : ∀ name args, Rel (raise name args) (raise name args)
  table : ∀ (r : TableRef) (g : Table → Table), g = Table.enter ∨ g = Table.leave →
    Rel (modifyTable r g) (modifyTable r g)
  writeSlot : ∀ i v, Rel (writeSlot f i v) (writeSlot f i v)
  giveFresh : ∀ idents, Rel (giveFresh f idents) (giveFresh f idents)

/-- Such a relation that goes through all that reads and edits nothing but the
heap and the slots of the frame, expressions among it. -/
structure StoreRules (f : FrameRef) (Rel : {α : Type} → Exec α → Exec α → Prop) : Prop extends
    Rules f Rel where
  store : ∀ {α : Type} {x : Exec α}, Edits f x → Local f x → Rel x x
  pure := fun a => store (.of_keeps (.pure a)) (.pure a)
  abort := fun a => store (.of_keeps (.abort a)) (.abort a)
  heap := store .heap .heap
  writeSlot := fun i v => store (.writeSlot i v) (.writeSlot i v)
  giveFresh := fun idents => store (giveFresh_edits idents) (giveFresh_local idents)

namespace Rules

variable {fuel fuel' : Nat} {f : FrameRef} {Rel : {α : Type} → Exec α → Exec α → Prop}
  {g : Stmt → Stmt}

theorem evalList (c : Rules f Rel) {es : List Expr}
    (hes : ∀ e ∈ es, Rel (e.eval f) (e.eval f)) :
    Rel (Expr.evalList f es) (Expr.evalList f es) := c.toComposes.evalList hes

/-- Lists of variants, where both sides see the same deferrals. -/
theorem execList (c : Rules f Rel) (hdelayed : Rel (hasDelayed f) (hasDelayed f))
    (hg : ∀ s, (g s).id = s.id) {ss : List Stmt}
    (hss : ∀ s ∈ ss, Rel (exec fuel f s) (exec fuel' f (g s))) :
    Rel (execList fuel f ss) (execList fuel' f (ss.map g)) :=
  c.toComposes.execList g c.setNext hdelayed hg hss

theorem deadline (c : Rules f Rel) {timeout : Option Expr}
    (htimeout : ∀ e ∈ timeout, Rel (e.eval f) (e.eval f)) :
    Rel (deadline f timeout) (deadline f timeout) := c.toComposes.deadline c.clock htimeout

end Rules

namespace StoreRules

variable {f : FrameRef} {Rel : {α : Type} → Exec α → Exec α → Prop}

theorem eval (c : StoreRules f Rel) (e : Expr) : Rel (e.eval f) (e.eval f) :=
  c.store (e.eval_edits f) (e.eval_local f)

theorem evalList (c : StoreRules f Rel) (es : List Expr) :
    Rel (Expr.evalList f es) (Expr.evalList f es) := c.toRules.evalList fun e _ => c.eval e

theorem deadline (c : StoreRules f Rel) (timeout : Option Expr) :
    Rel (deadline f timeout) (deadline f timeout) := c.toRules.deadline fun e _ => c.eval e

end StoreRules

/-! ## Statements -/

/-- A relation that goes through the executions of statements of kind `P` and of
their variants, with `fuel` rounds for each loop of the statement and `fuel'`
for each loop of the variant. A list may have parts of other kinds that it does
not run. -/
structure Congruence (P : Stmt → Prop) (variant : Stmt → Stmt) (fuel fuel' : Nat) (f : FrameRef)
    (Rel : {α : Type} → Exec α → Exec α → Prop) : Prop extends Rules f Rel where
  parts : ∀ s, P s → s.tag ≠ .list → ∀ t ∈ s.parts, P t
  info : ∀ s, (variant s).info = s.info
  shape : ∀ s, s.tag ≠ .list → s.tag ≠ .when → variant s = s.mapParts variant
  visit : ∀ s, P s → Rel (visit s.info) (visit s.info)
  eval : ∀ s, P s → ∀ e ∈ s.exprs, Rel (e.eval f) (e.eval f)
  addTo : ∀ i e, P (.add i e) → Rel (e.addTo f) (e.addTo f)
  deleteFrom : ∀ i e, P (.delete i e) → Rel (e.deleteFrom f) (e.deleteFrom f)
  list : ∀ i body, P (.list i body) →
    (∀ t ∈ body, P t → Rel (exec fuel f t) (exec fuel' f (variant t))) →
    Rel (act fuel f (.list i body)) (act fuel' f (variant (.list i body)))
  install : ∀ s, P s → s.tag = .when → Rel (act fuel f s) (act fuel' f (variant s))
  print : ∀ i args, P (.print i args) →
    Rel (Expr.evalList f args >>= printLine) (Expr.evalList f args >>= printLine)
  whileLoop : ∀ {test : Exec Value} {body body' : Exec Outcome}, Rel test test → Rel body body' →
    Rel (MonadState.get >>= fun w => whileRounds w.limits.maxLoopRounds test body fuel 0 .next)
      (MonadState.get >>= fun w => whileRounds w.limits.maxLoopRounds test body' fuel' 0 .next)
  vectorLoop : ∀ (r : VecRef) {bind : Value → Exec Unit} {body body' : Exec Outcome},
    (∀ v, Rel (bind v) (bind v)) → Rel body body' →
    Rel (vectorRounds r bind body fuel 0 .next) (vectorRounds r bind body' fuel' 0 .next)

namespace Congruence

variable {P : Stmt → Prop} {variant : Stmt → Stmt} {fuel fuel' : Nat} {f : FrameRef}
  {Rel : {α : Type} → Exec α → Exec α → Prop}

/-- What a statement does besides entering the journal, given what its parts
do. -/
theorem act (c : Congruence P variant fuel fuel' f Rel) {s : Stmt} (hs : P s)
    (hparts : ∀ t ∈ s.parts, P t → Rel (exec fuel f t) (exec fuel' f (variant t))) :
    Rel (act fuel f s) (act fuel' f (variant s)) := by
  have hid : ∀ t, (variant t).id = t.id := fun t => congrArg StmtInfo.id (c.info t)
  have heval := c.eval s hs
  by_cases hwhen : s.tag = .when
  · exact c.install s hs hwhen
  by_cases hlist : s.tag = .list
  · cases s with
    | list i body => exact c.list i body hs hparts
    | _ => cases hlist
  replace hparts := fun t ht => hparts t ht (c.parts s hs hlist t ht)
  rw [c.shape s hlist hwhen]
  cases s with
  | list | «when» => contradiction
  | print i args =>
    have hprint := c.bind (c.print i args hs) fun _ => c.pure Outcome.next
    rwa [bind_assoc] at hprint
  | event i name args =>
    exact c.bind (c.evalList heval) fun vals => c.bind (c.raise name vals) fun _ => c.pure _
  | add i target => exact c.bind (c.addTo i target hs) fun _ => c.pure _
  | delete i target => exact c.bind (c.deleteFrom i target hs) fun _ => c.pure _
  | init i idents => exact c.bind (c.giveFresh idents) fun _ => c.pure _
  | _ =>
    refine c.toComposes.act variant (by simp [tag, ownWork]) hid c.setNext
      (fun e he => heval e (mem_exprs_of_operand he)) (fun id _ => c.writeSlot id.slot)
      c.whileLoop (fun r _ _ _ _ hw hb => ?_) c.vectorLoop hparts
    exact c.bind c.heap fun h => c.bind (c.table _ _ (.inl rfl)) fun _ =>
      c.toComposes.tableRounds (c.table _ _ (.inr rfl)) (c.toComposes.bindEntry hw) hb _ _

/-- The executions of a statement and of its variant are related. -/
theorem exec (c : Congruence P variant fuel fuel' f Rel) {s : Stmt} (hs : P s) :
    Rel (exec fuel f s) (exec fuel' f (variant s)) := by
  induction s using tree_induction with
  | h s ih =>
    rw [exec_eq, exec_eq, c.info]
    refine c.bind (c.visit s hs) fun _ => c.act hs fun t ht hP => ?_
    exact ih t (s.parts_subset_children ht) hP

end Congruence

/-- The same statement under two budgets. -/
theorem StoreRules.congruence {P : Stmt → Prop} {fuel fuel' : Nat} {f : FrameRef}
    {Rel : {α : Type} → Exec α → Exec α → Prop} (c : StoreRules f Rel)
    (parts : ∀ s, P s → ∀ t ∈ s.parts, P t) (hvisit : ∀ i, Rel (visit i) (visit i))
    (hdelayed : Rel (hasDelayed f) (hasDelayed f))
    (hinstall : ∀ captured limit isReturn span,
      Rel (modify (World.install captured limit isReturn span) : Exec Unit)
        (modify (World.install captured limit isReturn span)))
    (print : ∀ i args, P (.print i args) →
      Rel (Expr.evalList f args >>= printLine) (Expr.evalList f args >>= printLine))
    (whileLoop : ∀ {test : Exec Value} {body body' : Exec Outcome}, Rel test test →
      Rel body body' →
      Rel (MonadState.get >>= fun w => whileRounds w.limits.maxLoopRounds test body fuel 0 .next)
        (MonadState.get >>= fun w => whileRounds w.limits.maxLoopRounds test body' fuel' 0 .next))
    (vectorLoop : ∀ (r : VecRef) {bind : Value → Exec Unit} {body body' : Exec Outcome},
      (∀ v, Rel (bind v) (bind v)) → Rel body body' →
      Rel (vectorRounds r bind body fuel 0 .next) (vectorRounds r bind body' fuel' 0 .next)) :
    Congruence P (fun s => s) fuel fuel' f Rel where
  toRules := c.toRules
  parts s hs _ := parts s hs
  info _ := rfl
  shape s _ _ := s.mapParts_self.symm
  visit s _ := hvisit s.info
  eval _ _ e _ := c.eval e
  addTo _ e _ := c.store (e.addTo_edits f) (e.addTo_local f)
  deleteFrom _ e _ := c.store (e.deleteFrom_edits f) (e.deleteFrom_local f)
  list i body hs hbody := by
    have hrel := c.execList hdelayed (fun _ => rfl) fun t ht => hbody t ht (parts _ hs t ht)
    rwa [List.map_id'] at hrel
  install s _ htag := by
    cases s with
    | «when» i test body timeout timeoutBody isReturn =>
      exact c.bind (c.bind (c.deadline timeout) fun limit => hinstall _ _ _ _) fun _ => c.pure _
    | _ => cases htag
  print := print
  whileLoop := whileLoop
  vectorLoop := vectorLoop

end Vigil.Stmt
