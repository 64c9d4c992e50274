import Vigil.Build.Stmt
import Vigil.Doc.Decode
import Vigil.Stmt.Exec

/-!
# Vigil.Script — units ready to run

A script is a unit that was built: an executable body, the size of the frames
it runs in, and everything that was found wrong with it. Building always
gives a script; `load` refuses one with errors.
-/

namespace Vigil

structure Script where
  name : String
  kind : Doc.UnitKind
  /-- Source file, for the line maps. -/
  file? : Option String
  body : Stmt
  /-- Declared or settled yield type. -/
  yield : Option Ty
  diagnostics : List Diagnostic
  frameSize : Nat
  names : List (String × Ident)
  /-- Statements with their locations, for the line maps. -/
  placed : List (Span × StmtId)
  nextStmt : StmtId
  /-- The first invariant found broken while building. -/
  breach? : Option Breach

namespace BuildM

/-- Declare one local. Says so when it is a collection, which needs a fresh
value before the body runs. -/
def localDecl (d : Doc.LocalDecl) : BuildM (Option Ident) := do
  if (← find? d.name).isSome then
    report d.span (.redeclared d.name)
    pure none
  else
    match d.const? with
    | none =>
      let id ← declare d.name d.ty
      pure (if d.ty.isAggregate then some id else none)
    | some lit =>
      match lit.value? with
      | none =>
        report d.span .invalidLiteral
        let _ ← declare d.name .error
        pure none
      | some v =>
        if v.atomTy.canAssign d.ty then
          let _ ← declareConst d.name (v.coerce d.ty)
          pure none
        else
          report d.span (.constantClash d.name v.atomTy d.ty)
          let _ ← declare d.name .error
          pure none

/-- Declare locals in order; gives the collections among them. -/
def localDecls : List Doc.LocalDecl → BuildM (List Ident)
  | [] => pure []
  | d :: rest => do
    let id ← localDecl d
    let ids ← localDecls rest
    pure (id.toList ++ ids)

/-- The body of a unit, after the fresh values its collections need. -/
def unitBody (u : Doc.Unit) : BuildM Stmt := do
  let collections ← localDecls u.locals
  let body ← stmt u.body
  if collections.isEmpty then pure body
  else
    let span := u.body.span
    let init ← number span
    let list ← number span
    pure (.list list [.init init collections, body])

end BuildM

namespace Script

/-- Build a unit, its statements numbered from `firstStmt`. -/
def build (u : Doc.Unit) (firstStmt : StmtId) : Script :=
  let (body, s) := (BuildM.unitBody u).run (.start (.ofKind u.kind) firstStmt)
  { name := u.name
    kind := u.kind
    file? := u.file?
    body := body
    yield := s.yieldRule.ty?
    diagnostics := s.diagnostics.toList
    frameSize := s.nextSlot
    names := s.names
    placed := s.placed.toList
    nextStmt := s.nextStmt
    breach? := s.breach? }

def find? (s : Script) (name : String) : Option Ident := s.names.lookup name

def errorCount (s : Script) : Nat := Diagnostic.errorCount s.diagnostics

def hasErrors (s : Script) : Bool := s.diagnostics.any Diagnostic.isError

def run (s : Script) (fuel : Nat) (f : FrameRef) : Exec Outcome := s.body.exec fuel f

end Script

/-! ## Loading -/

inductive LoadError where
  /-- The text is not a JSON document, or nests too deep. -/
  | notJson
  | notAUnit
  | construction (name : String) (diagnostics : List Diagnostic)
  | unreadable
deriving Repr

def LoadError.refusal (name : String) (diagnostics : List Diagnostic) : String :=
  name ++ ": " ++ Digits.padded 1 (Diagnostic.errorCount diagnostics) ++ " construction error(s)"

def Doc.Unit.ofText (text : String) : Except LoadError Doc.Unit :=
  match Json.readShape? Doc.Unit.shape Json.maxDepth text with
  | none => throw .notJson
  | some j =>
    match Doc.Unit.ofJson? j with
    | none => throw .notAUnit
    | some u => pure u

namespace Script

def load (u : Doc.Unit) (firstStmt : StmtId) : Except LoadError Script :=
  let s := build u firstStmt
  if s.hasErrors then throw (.construction s.name s.diagnostics) else pure s

/-- Loading gives what building gives, if that has no errors. -/
theorem load_eq_ok_iff {u : Doc.Unit} {firstStmt : StmtId} {s : Script} :
    load u firstStmt = .ok s ↔ build u firstStmt = s ∧ s.hasErrors = false := by
  unfold load
  dsimp only
  split
  · rename_i h
    constructor
    · nofun
    · rintro ⟨rfl, hs⟩
      rw [hs] at h
      cases h
  · rename_i h
    constructor
    · rintro ⟨⟩
      exact ⟨rfl, Bool.eq_false_iff.mpr h⟩
    · rintro ⟨rfl, -⟩
      rfl

end Script

end Vigil
