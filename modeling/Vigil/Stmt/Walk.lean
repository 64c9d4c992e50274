import Vigil.Stmt.Basic

/-!
# Vigil.Stmt.Walk — steered walks over statements

A walk calls a hook before and after every statement and expression, parts in
source order between the two. The hook before a node may skip the node, its
parts and the hook after it included; any hook may stop the whole walk.

Walking over a part answers like a hook does, and what comes after a hook or a
part goes by the answer (`andThen`). So a function for the parts of a node
takes the rest of the node along.
-/

namespace Vigil

inductive Steer where
  | go
  /-- Leave out the rest of this node. -/
  | skip
  | stop
deriving DecidableEq, Repr

structure Visitor (σ : Type) where
  preStmt : Stmt → StateM σ Steer := fun _ => pure .go
  postStmt : Stmt → StateM σ Steer := fun _ => pure .go
  preExpr : Expr → StateM σ Steer := fun _ => pure .go
  postExpr : Expr → StateM σ Steer := fun _ => pure .go

namespace Visitor

variable {σ : Type}

/-- The rest of a node after a hook or a part of it. To skip ends the node
here, and the walk goes on behind it. -/
def andThen (x rest : StateM σ Steer) : StateM σ Steer := do
  match ← x with
  | .go => rest
  | .skip => pure .go
  | .stop => pure .stop

/-- The end of a node: there is nothing left for its hook to skip. -/
def closing (post : StateM σ Steer) : StateM σ Steer := do
  match ← post with
  | .stop => pure .stop
  | .go | .skip => pure .go

mutual

def walkExpr (v : Visitor σ) : Expr → StateM σ Steer
  | e@(.const ..) | e@(.name ..) | e@(.error _) =>
    andThen (v.preExpr e) (closing (v.postExpr e))
  | e@(.unary _ a _) | e@(.size a _) =>
    andThen (v.preExpr e) (andThen (walkExpr v a) (closing (v.postExpr e)))
  | e@(.binary _ a b _) | e@(.assign a b _) =>
    andThen (v.preExpr e)
      (andThen (walkExpr v a) (andThen (walkExpr v b) (closing (v.postExpr e))))
  | e@(.index a is _) =>
    andThen (v.preExpr e) (andThen (walkExpr v a) (walkExprs v is (closing (v.postExpr e))))
  | e@(.member es a _) =>
    andThen (v.preExpr e) (walkExprs v es (andThen (walkExpr v a) (closing (v.postExpr e))))

/-- Walk over expressions, then the rest of the node they are part of. -/
def walkExprs (v : Visitor σ) : List Expr → (rest : StateM σ Steer) → StateM σ Steer
  | [], rest => rest
  | e :: es, rest => andThen (walkExpr v e) (walkExprs v es rest)

end

/-- Value labels are walked over, type labels hold no expressions. -/
def walkLabels (v : Visitor σ) : Labels → (rest : StateM σ Steer) → StateM σ Steer
  | .values es, rest => walkExprs v es rest
  | .types _, rest | .default, rest => rest

mutual

def walkStmt (v : Visitor σ) : Stmt → StateM σ Steer
  | s@(.list _ body) | s@(.bodyList _ body) =>
    andThen (v.preStmt s) (walkList v body (closing (v.postStmt s)))
  | s@(.expr _ e) | s@(.add _ e) | s@(.delete _ e) | s@(.return _ (some e)) =>
    andThen (v.preStmt s) (andThen (walkExpr v e) (closing (v.postStmt s)))
  | s@(.print _ args) | s@(.event _ _ args) =>
    andThen (v.preStmt s) (walkExprs v args (closing (v.postStmt s)))
  | s@(.cond _ test thenBody elseBody) =>
    andThen (v.preStmt s) (andThen (walkExpr v test)
      (andThen (walkStmt v thenBody) (andThen (walkStmt v elseBody) (closing (v.postStmt s)))))
  | s@(.while _ test body) =>
    andThen (v.preStmt s)
      (andThen (walkExpr v test) (andThen (walkStmt v body) (closing (v.postStmt s))))
  | s@(.for _ _ _ target body) =>
    andThen (v.preStmt s)
      (andThen (walkExpr v target) (andThen (walkStmt v body) (closing (v.postStmt s))))
  | s@(.switch _ selector cases _) =>
    -- the arms answer for all of the switch
    andThen (v.preStmt s)
      (andThen (andThen (walkExpr v selector) (walkCases v cases)) (closing (v.postStmt s)))
  | s@(.when _ test body timeout timeoutBody _) =>
    andThen (v.preStmt s) (andThen (walkExpr v test) (andThen (walkStmt v body)
      (walkExprs v timeout.toList (walkStmtOption v timeoutBody (closing (v.postStmt s))))))
  | s@(.next _) | s@(.break _) | s@(.fallthrough _) | s@(.return _ none) | s@(.init ..)
  | s@(.null _) =>
    andThen (v.preStmt s) (closing (v.postStmt s))

/-- Walk over statements, then the rest of the node they are part of. -/
def walkList (v : Visitor σ) : List Stmt → (rest : StateM σ Steer) → StateM σ Steer
  | [], rest => rest
  | s :: ss, rest => andThen (walkStmt v s) (walkList v ss rest)

def walkStmtOption (v : Visitor σ) : Option Stmt → (rest : StateM σ Steer) → StateM σ Steer
  | none, rest => rest
  | some s, rest => andThen (walkStmt v s) rest

def walkCases (v : Visitor σ) : List Case → StateM σ Steer
  | [] => pure .go
  | .mk labels body _ :: rest =>
    walkLabels v labels (andThen (walkStmt v body) (walkCases v rest))

end

/-- Walk over a statement; says whether the walk went to its end. -/
def walk (v : Visitor σ) (s : Stmt) : StateM σ Bool := do
  pure ((← v.walkStmt s) ≠ .stop)

end Visitor

end Vigil
