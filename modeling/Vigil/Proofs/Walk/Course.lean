import Vigil.Stmt.Walk

/-!
# Vigil.Proofs.Walk.Course — the hooks a walk calls

A statement is a tree of statements and expressions (`Stmt.tree`). The course
of a walk is told on that tree, without regard to what the nodes are
(`Visitor.course`): the hook before a node, the courses of its parts in order,
the hook after it. To skip leaves out the rest of a node, and nothing follows
an answer to stop.

The walk itself answers part by part, and each part carries the rest of its
node along. `Through` says that such a computation follows a row of trees and
then does the rest; one rule per way to put walks together makes every walk
follow the tree of its statement (`Visitor.walkStmt_follows`). Hooks that keep
a record show that the calls are those of the course
(`Visitor.walk_takes_course`).
-/

namespace Vigil

/-! ## Trees -/

/-- A statement or an expression. -/
inductive Node where
  | stmt (s : Stmt)
  | expr (e : Expr)

/-- A node with the trees of its parts, in source order. -/
inductive NodeTree where
  | node (n : Node) (parts : List NodeTree)

namespace Expr

mutual

def tree : Expr → NodeTree
  | e@(.const ..) | e@(.name ..) | e@(.error _) => .node (.expr e) []
  | e@(.unary _ a _) | e@(.size a _) => .node (.expr e) [tree a]
  | e@(.binary _ a b _) | e@(.assign a b _) => .node (.expr e) [tree a, tree b]
  | e@(.index a is _) => .node (.expr e) (tree a :: trees is)
  | e@(.member es a _) => .node (.expr e) (trees es ++ [tree a])

def trees : List Expr → List NodeTree
  | [] => []
  | e :: es => tree e :: trees es

end

end Expr

def Labels.trees : Labels → List NodeTree
  | .values es => Expr.trees es
  | .types _ | .default => []

namespace Stmt

mutual

/-- A statement with all statements and expressions below it. -/
def tree : Stmt → NodeTree
  | s@(.list _ body) | s@(.bodyList _ body) => .node (.stmt s) (trees body)
  | s@(.expr _ e) | s@(.add _ e) | s@(.delete _ e) => .node (.stmt s) [e.tree]
  | s@(.return _ value) => .node (.stmt s) (Expr.trees value.toList)
  | s@(.print _ args) | s@(.event _ _ args) => .node (.stmt s) (Expr.trees args)
  | s@(.cond _ test thenBody elseBody) =>
    .node (.stmt s) [test.tree, tree thenBody, tree elseBody]
  | s@(.while _ test body) => .node (.stmt s) [test.tree, tree body]
  | s@(.for _ _ _ target body) => .node (.stmt s) [target.tree, tree body]
  | s@(.switch _ selector cases _) => .node (.stmt s) (selector.tree :: treesCases cases)
  | s@(.when _ test body timeout timeoutBody _) =>
    .node (.stmt s)
      ([test.tree, tree body] ++ Expr.trees timeout.toList ++ treesOption timeoutBody)
  | s@(.next _) | s@(.break _) | s@(.fallthrough _) | s@(.init ..) | s@(.null _) =>
    .node (.stmt s) []

def trees : List Stmt → List NodeTree
  | [] => []
  | s :: rest => tree s :: trees rest

def treesOption : Option Stmt → List NodeTree
  | none => []
  | some s => [tree s]

/-- The labels of an arm stand before its body. -/
def treesCases : List Case → List NodeTree
  | [] => []
  | .mk labels body _ :: rest => labels.trees ++ tree body :: treesCases rest

end

end Stmt

/-! ## Courses -/

/-- A call of a hook. -/
inductive HookCall where
  | pre (n : Node)
  | post (n : Node)

def HookCall.isPost : HookCall → Bool
  | .post _ => true
  | .pre _ => false

mutual

/-- All hooks around the nodes of a tree, each once. -/
def NodeTree.hooks : NodeTree → List HookCall
  | .node n parts => .pre n :: hooksOf parts ++ [.post n]

def NodeTree.hooksOf : List NodeTree → List HookCall
  | [] => []
  | t :: ts => hooks t ++ hooksOf ts

end

/-- What a walk did: the hooks it called, with their answers, and the state it
left. -/
structure Course (σ : Type) where
  calls : List (HookCall × Steer)
  state : σ

/-- Some hook asked to stop. -/
def Course.Stopped {σ : Type} (c : Course σ) : Prop := ∃ call ∈ c.calls, call.2 = .stop

instance {σ : Type} (c : Course σ) : Decidable c.Stopped :=
  inferInstanceAs (Decidable (∃ call ∈ c.calls, call.2 = .stop))

namespace Visitor

variable {σ : Type}

/-- Call a hook. -/
def ask (v : Visitor σ) : HookCall → StateM σ Steer
  | .pre (.stmt s) => v.preStmt s
  | .post (.stmt s) => v.postStmt s
  | .pre (.expr e) => v.preExpr e
  | .post (.expr e) => v.postExpr e

mutual

/-- The course of a walk over a tree. -/
def course (v : Visitor σ) : NodeTree → σ → Course σ
  | .node n parts, st =>
    let before := (v.ask (.pre n)).run st
    if before.1 = .go then
      let inner := courses v parts before.2
      if inner.Stopped then ⟨(.pre n, before.1) :: inner.calls, inner.state⟩
      else
        let after := (v.ask (.post n)).run inner.state
        ⟨(.pre n, before.1) :: inner.calls ++ [(.post n, after.1)], after.2⟩
    else ⟨[(.pre n, before.1)], before.2⟩

/-- The courses over trees in a row, up to one that stopped. -/
def courses (v : Visitor σ) : List NodeTree → σ → Course σ
  | [], st => ⟨[], st⟩
  | t :: ts, st =>
    let first := course v t st
    if first.Stopped then first
    else
      let rest := courses v ts first.state
      ⟨first.calls ++ rest.calls, rest.state⟩

end

end Visitor

namespace Course

variable {σ : Type}

/-- The answer of a walk with this course. -/
def answer (c : Course σ) : Steer := if c.Stopped then .stop else .go

@[simp] theorem stopped_nil (st : σ) : ¬(Course.mk [] st).Stopped := by simp [Stopped]

@[simp] theorem stopped_cons (call : HookCall × Steer) (calls : List (HookCall × Steer))
    (st : σ) :
    (Course.mk (call :: calls) st).Stopped ↔ call.2 = .stop ∨ (Course.mk calls st).Stopped := by
  simp [Stopped]

@[simp] theorem stopped_append (calls more : List (HookCall × Steer)) (st : σ) :
    (Course.mk (calls ++ more) st).Stopped ↔
      (Course.mk calls st).Stopped ∨ (Course.mk more st).Stopped := by
  simp [Stopped, or_and_right, exists_or]

/-- Whether a course stopped is a matter of its calls. -/
theorem stopped_state (c : Course σ) {τ : Type} (st : τ) :
    (Course.mk c.calls st).Stopped ↔ c.Stopped := Iff.rfl

end Course

/-! ## Walks follow trees -/

namespace Visitor

variable {σ : Type} {v : Visitor σ} {x y rest : StateM σ Steer} {t : NodeTree}
  {ts us : List NodeTree}

theorem run_andThen (x rest : StateM σ Steer) (st : σ) :
    (andThen x rest).run st =
      if (x.run st).1 = .go then rest.run (x.run st).2
      else (if (x.run st).1 = .stop then .stop else .go, (x.run st).2) := by
  simp only [andThen, StateT.run_bind]
  rcases x.run st with ⟨a, st'⟩
  cases a <;> rfl

theorem run_closing (post : StateM σ Steer) (st : σ) :
    (closing post).run st =
      (if (post.run st).1 = .stop then .stop else .go, (post.run st).2) := by
  simp only [closing, StateT.run_bind]
  rcases post.run st with ⟨a, st'⟩
  cases a <;> rfl

/-- A walk takes the course of the tree. -/
def Follows (v : Visitor σ) (t : NodeTree) (x : StateM σ Steer) : Prop :=
  ∀ st, x.run st = ((v.course t st).answer, (v.course t st).state)

/-- A walk takes the courses of trees in a row, and then does the rest. -/
def Through (v : Visitor σ) (ts : List NodeTree) (x rest : StateM σ Steer) : Prop :=
  ∀ st, x.run st =
    if (v.courses ts st).Stopped then (.stop, (v.courses ts st).state)
    else rest.run (v.courses ts st).state

theorem courses_append (v : Visitor σ) (ts us : List NodeTree) (st : σ) :
    v.courses (ts ++ us) st =
      if (v.courses ts st).Stopped then v.courses ts st
      else
        ⟨(v.courses ts st).calls ++ (v.courses us (v.courses ts st).state).calls,
          (v.courses us (v.courses ts st).state).state⟩ := by
  induction ts generalizing st with
  | nil => simp [courses]
  | cons t ts ih =>
    simp only [List.cons_append, courses, ih]
    by_cases ht : (v.course t st).Stopped
    · simp [ht]
    · by_cases hts : (v.courses ts (v.course t st).state).Stopped <;>
        simp [ht, hts, Course.stopped_state]

namespace Through

theorem nil : Through v [] rest rest := by
  intro st
  simp [courses]

theorem cons (hx : Follows v t x) (hy : Through v ts y rest) :
    Through v (t :: ts) (andThen x y) rest := by
  intro st
  rw [run_andThen, hx st]
  by_cases hs : (v.course t st).Stopped
  · simp [courses, hs, Course.answer]
  · simp [courses, hs, Course.answer, hy _, Course.stopped_state]

theorem single (hx : Follows v t x) : Through v [t] (andThen x rest) rest := cons hx nil

theorem append (hx : Through v ts x y) (hy : Through v us y rest) :
    Through v (ts ++ us) x rest := by
  intro st
  rw [hx st, courses_append]
  by_cases hs : (v.courses ts st).Stopped
  · simp [hs]
  · simp [hs, hy _, Course.stopped_state]

/-- A walk that answers for the whole row. -/
theorem closed (hx : Through v ts x (pure .go)) : Through v ts (andThen x rest) rest := by
  intro st
  rw [run_andThen, hx st]
  by_cases hs : (v.courses ts st).Stopped
  · simp [hs]
  · rw [if_neg hs, if_neg hs]
    rfl

end Through

theorem Follows.node {n : Node} (hx : Through v ts x (closing (v.ask (.post n)))) :
    Follows v (.node n ts) (andThen (v.ask (.pre n)) x) := by
  intro st
  rw [run_andThen, hx, run_closing]
  simp only [course]
  split
  case isFalse hgo =>
    by_cases hstop : ((v.ask (.pre n)).run st).1 = .stop <;> simp [hstop, Course.answer]
  case isTrue hgo =>
    by_cases hs : (v.courses ts ((v.ask (.pre n)).run st).2).Stopped
    · simp [hs, hgo, Course.answer]
    · simp [hs, hgo, Course.answer, Course.stopped_state]

mutual

theorem walkExpr_follows (v : Visitor σ) : (e : Expr) → Follows v e.tree (v.walkExpr e)
  | .const .. | .name .. | .error _ => Follows.node Through.nil
  | .unary _ a _ | .size a _ => Follows.node (.single (walkExpr_follows v a))
  | .binary _ a b _ | .assign a b _ =>
    Follows.node (.cons (walkExpr_follows v a) (.single (walkExpr_follows v b)))
  | .index a is _ => Follows.node (.cons (walkExpr_follows v a) (walkExprs_through v is _))
  | .member es a _ =>
    Follows.node ((walkExprs_through v es _).append (.single (walkExpr_follows v a)))

theorem walkExprs_through (v : Visitor σ) :
    (es : List Expr) → (rest : StateM σ Steer) →
      Through v (Expr.trees es) (v.walkExprs es rest) rest
  | [], _ => Through.nil
  | e :: es, rest => .cons (walkExpr_follows v e) (walkExprs_through v es rest)

end

theorem walkLabels_through (v : Visitor σ) (labels : Labels) :
    Through v labels.trees (v.walkLabels labels rest) rest := by
  cases labels with
  | values es => exact walkExprs_through v es _
  | types _ => exact Through.nil
  | default => exact Through.nil

mutual

/-- Every walk over a statement takes the course of its tree. -/
theorem walkStmt_follows (v : Visitor σ) : (s : Stmt) → Follows v s.tree (v.walkStmt s)
  | .list _ body | .bodyList _ body => Follows.node (walkList_through v body _)
  | .expr _ e | .add _ e | .delete _ e | .return _ (some e) =>
    Follows.node (.single (walkExpr_follows v e))
  | .print _ args | .event _ _ args => Follows.node (walkExprs_through v args _)
  | .cond _ test thenBody elseBody =>
    Follows.node (.cons (walkExpr_follows v test)
      (.cons (walkStmt_follows v thenBody) (.single (walkStmt_follows v elseBody))))
  | .while _ test body =>
    Follows.node (.cons (walkExpr_follows v test) (.single (walkStmt_follows v body)))
  | .for _ _ _ target body =>
    Follows.node (.cons (walkExpr_follows v target) (.single (walkStmt_follows v body)))
  | .switch _ selector cases _ =>
    Follows.node (Through.closed (.cons (walkExpr_follows v selector) (walkCases_through v cases)))
  | .when _ test body timeout timeoutBody _ =>
    Follows.node (.append
      (.append (.cons (walkExpr_follows v test) (.single (walkStmt_follows v body)))
        (walkExprs_through v timeout.toList _))
      (walkStmtOption_through v timeoutBody _))
  | .next _ | .break _ | .fallthrough _ | .return _ none | .init .. | .null _ =>
    Follows.node Through.nil

theorem walkList_through (v : Visitor σ) :
    (ss : List Stmt) → (rest : StateM σ Steer) →
      Through v (Stmt.trees ss) (v.walkList ss rest) rest
  | [], _ => Through.nil
  | s :: ss, rest => .cons (walkStmt_follows v s) (walkList_through v ss rest)

theorem walkStmtOption_through (v : Visitor σ) :
    (o : Option Stmt) → (rest : StateM σ Steer) →
      Through v (Stmt.treesOption o) (v.walkStmtOption o rest) rest
  | none, _ => Through.nil
  | some s, _ => .single (walkStmt_follows v s)

theorem walkCases_through (v : Visitor σ) :
    (cs : List Case) → Through v (Stmt.treesCases cs) (v.walkCases cs) (pure .go)
  | [] => Through.nil
  | .mk labels body _ :: rest =>
    (walkLabels_through v labels).append
      (.cons (walkStmt_follows v body) (walkCases_through v rest))

end

/-! ## Records of walks -/

/-- Call a hook and write down its answer. -/
def noted (v : Visitor σ) (call : HookCall) : StateM (σ × List (HookCall × Steer)) Steer := do
  let (st, calls) ← get
  let (answer, st) := (v.ask call).run st
  set (st, calls ++ [(call, answer)])
  pure answer

/-- The same hooks, with a record of their calls. -/
def recorded (v : Visitor σ) : Visitor (σ × List (HookCall × Steer)) where
  preStmt s := v.noted (.pre (.stmt s))
  postStmt s := v.noted (.post (.stmt s))
  preExpr e := v.noted (.pre (.expr e))
  postExpr e := v.noted (.post (.expr e))

theorem run_recorded_ask (v : Visitor σ) (call : HookCall) (st : σ)
    (calls : List (HookCall × Steer)) :
    (v.recorded.ask call).run (st, calls) =
      (((v.ask call).run st).1, ((v.ask call).run st).2,
        calls ++ [(call, ((v.ask call).run st).1)]) := by
  rcases call with (_ | _) | (_ | _) <;> rfl

mutual

theorem course_recorded (v : Visitor σ) (st : σ) (calls : List (HookCall × Steer)) :
    (t : NodeTree) → v.recorded.course t (st, calls) =
      ⟨(v.course t st).calls, (v.course t st).state, calls ++ (v.course t st).calls⟩
  | .node n parts => by
    simp only [course, run_recorded_ask]
    split
    · rw [courses_recorded v _ _ parts]
      by_cases hs : (v.courses parts ((v.ask (.pre n)).run st).2).Stopped
      · simp [hs, Course.stopped_state]
      · simp [hs, Course.stopped_state, run_recorded_ask]
    · rfl

theorem courses_recorded (v : Visitor σ) (st : σ) (calls : List (HookCall × Steer)) :
    (ts : List NodeTree) → v.recorded.courses ts (st, calls) =
      ⟨(v.courses ts st).calls, (v.courses ts st).state, calls ++ (v.courses ts st).calls⟩
  | [] => by simp [courses]
  | t :: ts => by
    simp only [courses, course_recorded v st calls t, Course.stopped_state]
    split
    · rfl
    · rw [courses_recorded v _ _ ts]
      simp

end

/-! ## Order and number of the calls -/

mutual

/-- Nothing comes after an answer to stop. -/
theorem pairwise_course (v : Visitor σ) (st : σ) :
    (t : NodeTree) → (v.course t st).calls.Pairwise fun earlier _ => earlier.2 ≠ .stop
  | .node n parts => by
    have inner := pairwise_courses v ((v.ask (.pre n)).run st).2 parts
    simp only [course]
    split
    case isFalse => exact List.pairwise_singleton ..
    case isTrue hgo =>
      have first : ((v.ask (.pre n)).run st).1 ≠ .stop := by simp [hgo]
      split
      · exact List.pairwise_cons.mpr ⟨fun _ _ => first, inner⟩
      case isFalse hs =>
        have calls : ∀ call ∈ (v.courses parts ((v.ask (.pre n)).run st).2).calls,
            call.2 ≠ .stop := fun call hmem hstop => hs ⟨call, hmem, hstop⟩
        refine List.pairwise_cons.mpr ⟨fun _ _ => first, ?_⟩
        exact List.pairwise_append.mpr
          ⟨inner, List.pairwise_singleton .., fun call hmem _ _ => calls call hmem⟩

theorem pairwise_courses (v : Visitor σ) (st : σ) :
    (ts : List NodeTree) → (v.courses ts st).calls.Pairwise fun earlier _ => earlier.2 ≠ .stop
  | [] => List.Pairwise.nil
  | t :: ts => by
    simp only [courses]
    split
    · exact pairwise_course v st t
    case isFalse hs =>
      refine List.pairwise_append.mpr
        ⟨pairwise_course v st t, pairwise_courses v _ ts, fun call hmem _ _ hstop => ?_⟩
      exact hs ⟨call, hmem, hstop⟩

end

mutual

/-- No hook is called twice for one node, or out of turn. -/
theorem sublist_course (v : Visitor σ) (st : σ) :
    (t : NodeTree) → ((v.course t st).calls.map Prod.fst).Sublist t.hooks
  | .node n parts => by
    have inner := sublist_courses v ((v.ask (.pre n)).run st).2 parts
    simp only [course, NodeTree.hooks]
    split
    · split
      · simpa using inner.trans (List.sublist_append_left ..)
      · simpa using inner
    · simp

theorem sublist_courses (v : Visitor σ) (st : σ) :
    (ts : List NodeTree) → ((v.courses ts st).calls.map Prod.fst).Sublist (NodeTree.hooksOf ts)
  | [] => by simp [courses]
  | t :: ts => by
    have first := sublist_course v st t
    simp only [courses, NodeTree.hooksOf]
    split
    · exact first.trans (List.sublist_append_left ..)
    · simpa using first.append (sublist_courses v _ ts)

end

end Visitor

/-- An answer that leaves nothing out: to go on, or to skip when the node is
over. -/
def Undisturbed (call : HookCall × Steer) : Prop :=
  call.2 = .go ∨ call.2 = .skip ∧ call.1.isPost = true

instance : DecidablePred Undisturbed := fun call =>
  inferInstanceAs (Decidable (call.2 = .go ∨ call.2 = .skip ∧ call.1.isPost = true))

theorem Course.not_stopped_of_undisturbed {σ : Type} {c : Course σ}
    (h : ∀ call ∈ c.calls, Undisturbed call) : ¬c.Stopped := by
  rintro ⟨call, hmem, hstop⟩
  rcases h call hmem with hgo | ⟨hskip, -⟩
  · simp [hgo] at hstop
  · simp [hskip] at hstop

namespace Visitor

variable {σ : Type}

mutual

/-- Where nothing disturbs the walk, every hook is called. -/
theorem course_of_undisturbed (v : Visitor σ) (st : σ) :
    (t : NodeTree) → (∀ call ∈ (v.course t st).calls, Undisturbed call) →
      (v.course t st).calls.map Prod.fst = t.hooks
  | .node n parts => by
    simp only [course, NodeTree.hooks]
    split
    case isFalse hgo => simp [Undisturbed, HookCall.isPost, hgo]
    case isTrue hgo =>
      split
      case isTrue hs =>
        intro h
        exact absurd hs (Course.not_stopped_of_undisturbed fun call hmem =>
          h call (List.mem_cons_of_mem _ hmem))
      case isFalse hs =>
        intro h
        have inner := courses_of_undisturbed v ((v.ask (.pre n)).run st).2 parts
          fun call hmem => h call (by simp [hmem])
        simp [inner]

theorem courses_of_undisturbed (v : Visitor σ) (st : σ) :
    (ts : List NodeTree) → (∀ call ∈ (v.courses ts st).calls, Undisturbed call) →
      (v.courses ts st).calls.map Prod.fst = NodeTree.hooksOf ts
  | [] => by simp [courses, NodeTree.hooksOf]
  | t :: ts => by
    simp only [courses, NodeTree.hooksOf]
    split
    case isTrue hs => exact fun h => absurd hs (Course.not_stopped_of_undisturbed h)
    case isFalse hs =>
      intro h
      have first := course_of_undisturbed v st t fun call hmem => h call (by simp [hmem])
      have rest := courses_of_undisturbed v (v.course t st).state ts
        fun call hmem => h call (by simp [hmem])
      simp [first, rest]

end

/-- A walk calls its hooks, whatever they answer, as the course over the tree
tells: its record is the calls of the course. It answers to stop exactly when
some hook did, and otherwise to go on. After an answer to stop no hook is
called; all hooks are called in their places at most once, and each exactly
once when nothing was left out. -/
theorem walk_takes_course (v : Visitor σ) (s : Stmt) (st : σ) :
    (v.recorded.walkStmt s).run (st, []) =
        ((v.course s.tree st).answer, (v.course s.tree st).state, (v.course s.tree st).calls) ∧
      (v.walkStmt s).run st =
        (if ∃ call ∈ (v.course s.tree st).calls, call.2 = .stop then .stop else .go,
          (v.course s.tree st).state) ∧
      (v.course s.tree st).calls.Pairwise (fun earlier _ => earlier.2 ≠ .stop) ∧
      ((v.course s.tree st).calls.map Prod.fst).Sublist s.tree.hooks ∧
      ((∀ call ∈ (v.course s.tree st).calls, Undisturbed call) →
        (v.course s.tree st).calls.map Prod.fst = s.tree.hooks) := by
  refine ⟨?_, walkStmt_follows v s st, pairwise_course v st s.tree, sublist_course v st s.tree,
    course_of_undisturbed v st s.tree⟩
  rw [walkStmt_follows v.recorded s, course_recorded]
  rfl

/-- Hooks that count their calls and skip whatever is over already. -/
def counter : Visitor Nat where
  preStmt _ := modifyGet fun n => (.go, n + 1)
  postStmt _ := modifyGet fun n => (.skip, n + 1)
  preExpr _ := modifyGet fun n => (.go, n + 1)
  postExpr _ := modifyGet fun n => (.skip, n + 1)

/-- A loop, its test and its body have six hooks. -/
theorem walk_takes_course_loop :
    let s : Stmt :=
      .while ⟨1, .unknown⟩ (.const (.bool true) ⟨.bool, .unknown⟩) (.null ⟨0, .unknown⟩)
    (counter.recorded.walkStmt s).run (0, []) = (.go, 6, (counter.course s.tree 0).calls) ∧
      (counter.course s.tree 0).calls.map Prod.fst = s.tree.hooks := by
  intro s
  have hcalls : ∀ call ∈ (counter.course s.tree 0).calls, Undisturbed call := by decide +kernel
  obtain ⟨hrun, -, -, -, hall⟩ := walk_takes_course counter s 0
  exact ⟨hrun, hall hcalls⟩

end Visitor

end Vigil
