import Vigil.Expr.Check
import Vigil.Stmt.Basic
import Vigil.Doc.Basic

/-!
# Vigil.Build.Scope — the state of a construction

While a unit is built, names are bound to slots, statements are numbered and
placed, problems are collected, and the rule for `return` may be settled by
the first one met. Every declaration takes a new slot; a name refers to its
latest declaration.
-/

namespace Vigil

/-- What `return` may carry in the unit under construction. -/
inductive YieldRule where
  /-- There is nothing to return from. -/
  | illegal
  /-- The first value returned settles the type. -/
  | inferring
  /-- A value of that type, or no value; a hook may also return nothing. -/
  | fixed (ty : Option Ty) (isHook : Bool)
deriving DecidableEq, Repr

namespace YieldRule

def ofKind : Doc.UnitKind → YieldRule
  | .toplevel => .illegal
  | .function none => .inferring
  | .function (some ty) => .fixed (some ty) false
  | .event => .fixed none false
  | .hook => .fixed (some .bool) true

/-- The type that was declared, or settled. -/
def ty? : YieldRule → Option Ty
  | .fixed ty _ => ty
  | _ => none

/-- The rule after a `return`, and what is wrong with that `return`. -/
def step (rule : YieldRule) (span : Span) (value : Option Expr) :
    YieldRule × Option Diagnostic :=
  match rule, value with
  | .illegal, _ => (rule, some ⟨.returnOutside, span, none⟩)
  | .inferring, none => (rule, none)
  | .inferring, some e => (.fixed (some e.ty) false, none)
  | .fixed none _, none | .fixed (some .void) _, none => (rule, none)
  | .fixed none _, some _ | .fixed (some .void) _, some _ =>
    (rule, some ⟨.returnWithValue, span, none⟩)
  | .fixed (some _) isHook, none =>
    (rule, if isHook then none else some ⟨.returnWithoutValue, span, none⟩)
  | .fixed (some ty) _, some e =>
    (rule, if e.ty.canAssign ty then none else some ⟨.returnClash e.ty ty, e.span, none⟩)

end YieldRule

structure Scope where
  /-- Declared names, the latest first. -/
  names : List (String × Ident)
  nextSlot : Nat
  nextStmt : StmtId
  yieldRule : YieldRule
  /-- Problems found, in order. -/
  diagnostics : Array Diagnostic
  /-- Statements with their locations, in the order they were finished. -/
  placed : Array (Span × StmtId)
  breach? : Option Breach

abbrev BuildM (α : Type) := StateM Scope α

namespace Scope

/-- Nothing built yet; statements are numbered from `firstStmt`. -/
def start (rule : YieldRule) (firstStmt : StmtId) : Scope := ⟨[], 0, firstStmt, rule, #[], #[], none⟩

def find? (name : String) (s : Scope) : Option Ident := s.names.lookup name

end Scope

namespace BuildM

def reportAll (ds : List Diagnostic) : BuildM PUnit :=
  modify fun s => { s with diagnostics := s.diagnostics ++ ds.toArray }

def report (span : Span) (problem : Problem) : BuildM PUnit := reportAll [⟨problem, span, none⟩]

def reportIf (bad : Bool) (span : Span) (problem : Problem) : BuildM PUnit :=
  if bad then report span problem else pure ⟨⟩

/-- The type a check gives; a failed check is reported and gives `error`. -/
def checked : Verdict → BuildM Ty
  | .ok ty => pure ty
  | .error d => do
    reportAll [d]
    pure .error

def find? (name : String) : BuildM (Option Ident) := do pure ((← get).find? name)

def declareAs (name : String) (ty : Ty) (const? : Option Value) : BuildM Ident := do
  let id : Ident := ⟨name, (← get).nextSlot, ty, const?⟩
  modify fun s => { s with names := (name, id) :: s.names, nextSlot := s.nextSlot + 1 }
  pure id

def declare (name : String) (ty : Ty) : BuildM Ident := declareAs name ty none

/-- Declare a constant; its type is that of its value. -/
def declareConst (name : String) (v : Value) : BuildM Ident :=
  declareAs name v.atomTy (some v)

def number (span : Span) : BuildM StmtInfo := do
  let id := (← get).nextStmt
  modify fun s => { s with nextStmt := id + 1 }
  pure ⟨id, span⟩

/-- Number a new statement that stands in the source. -/
def place (span : Span) : BuildM StmtInfo := do
  let info ← number span
  modify fun s => { s with placed := s.placed.push (span, info.id) }
  pure info

end BuildM

end Vigil
