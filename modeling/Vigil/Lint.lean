import Vigil.Script
import Vigil.Stmt.Walk

/-!
# Vigil.Lint — likely mistakes in built units

Two rules look for what is legal and almost certainly not meant: statements
that can never be reached, and loop variables or case bindings that nothing
reads. Each rule walks once over the unit. All findings are warnings.
-/

namespace Vigil

inductive LintRule where
  | unreachableCode
  | unusedVariable
deriving DecidableEq, Repr

namespace LintRule

/-- The rules, in the order they are applied. -/
def all : List LintRule := [.unreachableCode, .unusedVariable]

def name : LintRule → String
  | .unreachableCode => "unreachable-code"
  | .unusedVariable => "unused-variable"

def description : LintRule → String
  | .unreachableCode => "Statements after break/next/fallthrough/return never execute"
  | .unusedVariable => "Loop variables and case bindings should be used"

end LintRule

inductive Finding where
  | unreachable (jump : StmtTag) (span : Span)
  /-- A variable that nothing reads, and where it is introduced. -/
  | unused (name : String) (span : Span)
deriving DecidableEq, Repr

namespace Finding

def rule : Finding → LintRule
  | .unreachable .. => .unreachableCode
  | .unused .. => .unusedVariable

def span : Finding → Span
  | .unreachable _ span | .unused _ span => span

def message : Finding → String
  | .unreachable jump _ => "Unreachable code after '" ++ jump.name ++ "'"
  | .unused name _ => "Variable '" ++ name ++ "' is declared but never used"

/-- No finding blocks a unit. -/
def isError (_ : Finding) : Bool := false

def text (f : Finding) : String :=
  "warning at line " ++ Digits.padded 1 f.span.startLine ++ ", col "
    ++ Digits.padded 1 f.span.startCol ++ ": " ++ f.message ++ " [" ++ f.rule.name ++ "]"

end Finding

/-! ## Unreachable code -/

/-- The first jump in a list that something follows, and what follows it. -/
def firstCutOff? : List Stmt → Option (Stmt × Stmt)
  | s :: after :: rest => if s.tag.isJump then some (s, after) else firstCutOff? (after :: rest)
  | _ => none

def Stmt.unreachable? : Stmt → Option Finding
  | .list _ body => (firstCutOff? body).map fun (s, after) => .unreachable s.tag after.span
  | _ => none

/-- Hooks that collect what is cut off. -/
def finder : Visitor (List Finding) where
  preStmt s := modifyGet fun found => (.go, found ++ s.unreachable?.toList)

/-! ## Unused variables -/

structure Introduced where
  ident : Ident
  span : Span
deriving DecidableEq, Repr

def Labels.introduced : Labels → List Introduced
  | .types ts => ts.filterMap fun t => t.binding?.map fun id => ⟨id, t.span⟩
  | _ => []

/-- Loop variables and case bindings of the statement itself. -/
def Stmt.introduced : Stmt → List Introduced
  | .for i vars valueVar _ _ => (vars ++ valueVar.toList).map fun id => ⟨id, i.span⟩
  | .switch _ _ cases _ => cases.flatMap fun c => c.labels.introduced
  | _ => []

/-- Insert by slot; of two with one slot the first stays. -/
def insertIntroduced (x : Introduced) : List Introduced → List Introduced
  | [] => [x]
  | y :: rest =>
    if x.ident.slot < y.ident.slot then x :: y :: rest
    else if x.ident.slot = y.ident.slot then y :: rest
    else y :: insertIntroduced x rest

/-- Variables introduced so far, by slot, and the slots that were named. -/
structure Usage where
  introduced : List Introduced
  named : List Nat

def Usage.introduce (u : Usage) (xs : List Introduced) : Usage :=
  { u with introduced := xs.foldl (fun ys x => insertIntroduced x ys) u.introduced }

def Usage.name (u : Usage) (slots : List Nat) : Usage := { u with named := u.named ++ slots }

def Expr.ident? : Expr → Option Ident
  | .name id _ => some id
  | _ => none

/-- Hooks that write down what is introduced and what is named. -/
def collector : Visitor Usage where
  preStmt s := modifyGet fun u => (.go, u.introduce s.introduced)
  preExpr e := modifyGet fun u => (.go, u.name (e.ident?.toList.map (·.slot)))

/-- Whether a name says that its variable is not meant to be read. -/
def isExempt (name : String) : Bool := name.toList.head? = some '_'

/-- Variables introduced in a statement that nothing in it names. -/
def Stmt.unusedVariables (s : Stmt) : List Introduced :=
  let u := ((collector.walk s).run ⟨[], []⟩).2
  u.introduced.filter fun x => !isExempt x.ident.name && !u.named.contains x.ident.slot

/-! ## All rules -/

def LintRule.apply (rule : LintRule) (s : Script) : List Finding :=
  match rule with
  | .unreachableCode => ((finder.walk s.body).run []).2
  | .unusedVariable => s.body.unusedVariables.map fun x => .unused x.ident.name x.span

def Script.lint (s : Script) : List Finding := LintRule.all.flatMap (·.apply s)

end Vigil
