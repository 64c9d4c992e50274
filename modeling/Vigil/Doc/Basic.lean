import Vigil.Number.Double
import Vigil.Operator
import Vigil.Span
import Vigil.Ty

/-!
# Vigil.Doc.Basic — unit documents

The tree a front end hands over: one body with the locals it declares. It
carries names, not resolved identifiers, and no types beyond the declared
ones. Building a unit resolves and checks it.
-/

namespace Vigil.Doc

inductive Lit where
  | bool (v : Bool)
  | int (v : Int64)
  | count (v : UInt64)
  | double (v : Double)
  | str (v : String)
  /-- Seconds. -/
  | interval (v : Double)
  /-- Seconds since the epoch. -/
  | time (v : Double)
deriving DecidableEq, Repr

/-- What a unit is: it decides where `return` is legal and what it carries. -/
inductive UnitKind where
  /-- Global statements; `return` is illegal. -/
  | toplevel
  /-- A function body; without a declared yield type the first `return` with
  an expression fixes it. -/
  | function (yield : Option Ty)
  | event
  | hook
deriving DecidableEq, Repr

/-- A declared local, or a named constant when it has a literal. -/
structure LocalDecl where
  name : String
  ty : Ty
  const? : Option Lit
  span : Span
deriving DecidableEq, Repr

structure LoopVar where
  name : String
  ty? : Option Ty
  span : Span
deriving DecidableEq, Repr

structure TypeLabel where
  ty : Ty
  binding? : Option String
  span : Span
deriving DecidableEq, Repr

/-- Expressions. Those not read from a file have no location. -/
inductive Expr where
  | const (value : Lit) (span : Span := .unknown)
  | name (name : String) (span : Span := .unknown)
  | unary (op : UnaryOp) (operand : Expr) (span : Span := .unknown)
  | binary (op : BinaryOp) (lhs rhs : Expr) (span : Span := .unknown)
  | assign (target value : Expr) (span : Span := .unknown)
  | index (target : Expr) (index : List Expr) (span : Span := .unknown)
  | member (elem : List Expr) (target : Expr) (span : Span := .unknown)
  | size (operand : Expr) (span : Span := .unknown)
deriving Repr

mutual

inductive Stmt where
  | list (body : List Stmt) (span : Span := .unknown)
  /-- Handler bodies of one event. -/
  | bodyList (body : List Stmt) (span : Span := .unknown)
  | expr (expr : Expr) (span : Span := .unknown)
  | print (args : List Expr) (span : Span := .unknown)
  | event (name : String) (args : List Expr) (span : Span := .unknown)
  | cond (test : Expr) (thenBody : Stmt) (elseBody : Option Stmt) (span : Span := .unknown)
  | while (test : Expr) (body : Stmt) (span : Span := .unknown)
  | for (vars : List LoopVar) (valueVar : Option LoopVar) (iterable : Expr) (body : Stmt)
      (span : Span := .unknown)
  | switch (expr : Expr) (cases : List Case) (span : Span := .unknown)
  | add (target : Expr) (span : Span := .unknown)
  | delete (target : Expr) (span : Span := .unknown)
  | next (span : Span := .unknown)
  | break (span : Span := .unknown)
  | fallthrough (span : Span := .unknown)
  | return (value : Option Expr := none) (span : Span := .unknown)
  /-- Give collections fresh empty values. -/
  | init (names : List String) (span : Span := .unknown)
  | null (span : Span := .unknown)
  | when (cond : Expr) (body : Stmt) (timeout : Option Timeout) (isReturn : Bool)
      (span : Span := .unknown)

/-- One arm of a switch; with neither values nor types it is the default. -/
inductive Case where
  | mk (values : Option (List Expr)) (types : Option (List TypeLabel)) (body : Stmt)
      (span : Span := .unknown)

inductive Timeout where
  | mk (expr : Expr) (body : Option Stmt)

end

structure Unit where
  name : String
  kind : UnitKind
  file? : Option String := none
  locals : List LocalDecl
  body : Stmt

def Stmt.span : Stmt → Span
  | .list _ s | .bodyList _ s | .expr _ s | .print _ s | .event _ _ s | .cond _ _ _ s
  | .while _ _ s | .for _ _ _ _ s | .switch _ _ s | .add _ s | .delete _ s | .next s
  | .break s | .fallthrough s | .return _ s | .init _ s | .null s | .when _ _ _ _ s => s

end Vigil.Doc
