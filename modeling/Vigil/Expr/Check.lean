import Vigil.Diagnostic
import Vigil.Expr.Arith
import Vigil.Expr.Basic

/-!
# Vigil.Expr.Check — types of expressions

Each form of expression has one rule that gives its type from the types of
its parts, or says what is wrong. A part of type `error` was reported before
and makes the whole `error` without a further report.
-/

namespace Vigil

/-- A type, or the one problem that stands against it. -/
abbrev Verdict := Except Diagnostic Ty

namespace Verdict

def fail {α : Type} (span : Span) (problem : Problem) : Except Diagnostic α :=
  throw ⟨problem, span, none⟩

/-! ## Operators -/

def unary (op : UnaryOp) (operand : Ty) (span : Span) : Verdict :=
  match op, operand with
  | _, .error => pure .error
  | .not, .bool => pure .bool
  | .not, _ => fail span .booleanOperand
  | _, .count | _, .int => pure .int
  | _, .double => pure .double
  | _, .interval => pure .interval
  | _, _ => fail span .arithmeticOperand

/-- Whether a comparison takes these operands: numbers, two strings, times or
intervals, and for equality also two booleans. -/
def comparable (op : BinaryOp) (a b : Ty) : Bool :=
  (Ty.promote? a b).isSome
    || ((a = .string || a = .time || a = .interval) && a.same b)
    || (a.isBool && b.isBool && (op = .eq || op = .ne))

def arithmetic? (op : BinaryOp) (a b : Ty) : Option Ty :=
  if a.isNumeric && b.isNumeric then Ty.promote? a b
  else
    match op, a, b with
    | .add, .time, .interval | .sub, .time, .interval | .add, .interval, .time => some .time
    | .sub, .time, .time => some .interval
    | .add, .interval, .interval | .sub, .interval, .interval => some .interval
    | .div, .interval, .interval => some .double
    | .mul, .interval, n | .div, .interval, n => if n.isNumeric then some .interval else none
    | .mul, n, .interval => if n.isNumeric then some .interval else none
    | _, _, _ => none

def binary (op : BinaryOp) (a b : Ty) (span : Span) : Verdict :=
  if a.isError || b.isError then pure .error
  else if op.isLogical then
    if a.isBool && b.isBool then pure .bool else fail span .booleanOperands
  else if op.isComparison then
    if comparable op a b then pure .bool else fail span (.comparison a op b)
  else
    match arithmetic? op a b with
    | some ty => if ty = .double ∧ op = .mod then fail span .moduloOperands else pure ty
    | none => fail span (.arithmeticOperands a op b)

/-! ## Assignment -/

def assign (target value : Expr) (span : Span) : Verdict :=
  let store : Verdict :=
    if value.ty.canAssign target.ty then pure target.ty
    else fail span (.assignmentClash target.ty value.ty)
  match target with
  | .name i _ =>
    if i.isConst then fail span (.constantTarget i.name)
    else if target.ty = .void then fail span .assignmentTarget
    else store
  | .index .. => if target.ty = .void then fail span .assignmentTarget else store
  | .error _ => store
  | _ => fail span .assignmentTarget

/-! ## Collections -/

/-- The components of an index against the declared types. -/
def components : List Ty → List Expr → Except Diagnostic PUnit
  | ty :: types, e :: es =>
    if e.ty.canAssign ty then components types es else fail e.span (.indexClash e.ty ty)
  | _, _ => pure ⟨⟩

/-- An index list against the declared types. -/
def indexList (types : List Ty) (index : List Expr) (span : Span) : Except Diagnostic PUnit :=
  if types.length = index.length then components types index
  else fail span (.indexCount types.length index.length)

/-- Element access. An element of a set has no value, and is only of use as
the target of `add` or `delete`. -/
def index (target : Ty) (index : List Expr) (span : Span) : Verdict :=
  match target with
  | .error => pure .error
  | .table types y => do indexList types index span; pure y
  | .set types => do indexList types index span; pure .void
  | .vector elem =>
    match index with
    | [i] => if i.ty.isIntegral || i.ty.isError then pure elem else fail span .vectorIndexType
    | _ => fail span .vectorIndexCount
  | other => fail span (.notIndexable other)

def member (elem : List Expr) (target : Ty) (span : Span) : Verdict :=
  match target with
  | .error => pure .bool
  | .table types _ | .set types => do indexList types elem span; pure .bool
  | .vector _ =>
    match elem with
    | [i] => if i.ty.isIntegral || i.ty.isError then pure .bool else fail span .vectorMembership
    | _ => fail span .vectorMembership
  | .string =>
    match elem with
    | [s] => if s.ty = .string || s.ty.isError then pure .bool else fail span .stringMembership
    | _ => fail span .stringMembership
  | other => fail span (.notACollection other)

def size (operand : Ty) (span : Span) : Verdict :=
  match operand with
  | .error => pure .error
  | .table .. | .set _ | .vector _ | .string | .count | .int => pure .count
  | .double => pure .double
  | .interval => pure .interval
  | other => fail span (.noSize other)

end Verdict

/-! ## Constants -/

/-- Value of a constant expression: a literal, a named constant, or a sign in
front of one. -/
def Expr.fold? : Expr → Option Value
  | .const v _ => some v
  | .name i _ => i.const?
  | .unary .not _ _ => none
  | .unary op e _ =>
    match fold? e with
    | some v => (op.apply .empty v).toOption
    | none => none
  | _ => none

end Vigil
