import Vigil.Operator
import Vigil.Span
import Vigil.Value

/-!
# Vigil.Expr.Basic — resolved expressions

An expression whose names are resolved to identifiers and whose nodes carry
their type and location. A node that failed its checks has type `error` and
is kept, so that the rest of the unit can be built around it.
-/

namespace Vigil

/-- A resolved identifier: a slot of the frame, or a named constant. -/
structure Ident where
  name : String
  slot : Nat
  ty : Ty
  const? : Option Value
deriving DecidableEq, Repr

def Ident.isConst (i : Ident) : Bool := i.const?.isSome

structure ExprInfo where
  ty : Ty
  span : Span
deriving DecidableEq, Repr

inductive Expr where
  | const (value : Value) (info : ExprInfo)
  | name (ident : Ident) (info : ExprInfo)
  | unary (op : UnaryOp) (operand : Expr) (info : ExprInfo)
  | binary (op : BinaryOp) (lhs rhs : Expr) (info : ExprInfo)
  | assign (target value : Expr) (info : ExprInfo)
  | index (target : Expr) (index : List Expr) (info : ExprInfo)
  | member (elem : List Expr) (target : Expr) (info : ExprInfo)
  | size (operand : Expr) (info : ExprInfo)
  /-- Stands for something that could not be built at all. -/
  | error (info : ExprInfo)
deriving Repr

namespace Expr

def info : Expr → ExprInfo
  | .const _ i | .name _ i | .unary _ _ i | .binary _ _ _ i | .assign _ _ i | .index _ _ i
  | .member _ _ i | .size _ i | .error i => i

def ty (e : Expr) : Ty := e.info.ty

def span (e : Expr) : Span := e.info.span

def constant (v : Value) (span : Span) : Expr := .const v ⟨v.atomTy, span⟩

def isError (e : Expr) : Bool := e.ty.isError

def isConst : Expr → Bool
  | .const .. => true
  | _ => false

def formName : Expr → String
  | .const .. => "const"
  | .name .. => "name"
  | .unary .. => "unary"
  | .binary .. => "binary"
  | .assign .. => "assign"
  | .index .. => "index"
  | .member .. => "in"
  | .size .. => "size"
  | .error _ => "error"

/-! ## Purity -/

mutual

/-- Whether evaluation only reads. -/
def isPure : Expr → Bool
  | .const .. | .name .. | .error _ => true
  | .assign .. => false
  | .unary _ e _ | .size e _ => isPure e
  | .binary _ l r _ => isPure l && isPure r
  | .index t is _ => isPure t && isPureList is
  | .member es t _ => isPure t && isPureList es

def isPureList : List Expr → Bool
  | [] => true
  | e :: es => isPure e && isPureList es

end

/-- Whether this can be the target of `add`: an element of a set. -/
def canAdd : Expr → Bool
  | .index t _ _ => t.ty.isSet
  | .error _ => true
  | _ => false

/-- Whether this can be the target of `delete`: an element of a collection. -/
def canDelete : Expr → Bool
  | .index t _ _ => t.ty.isAggregate
  | .error _ => true
  | _ => false

end Expr

end Vigil
