import Vigil.Build.Expr
import Vigil.Stmt.Dispatch

/-!
# Vigil.Build.Stmt — building statements

Statements are built in source order and numbered when they are complete, so
the parts of a statement have smaller numbers than the statement. Loop
variables and case bindings are declared on the way and stay declared to the
end of the unit. A statement that fails a check is built all the same.
-/

namespace Vigil.BuildM

/-! ## Loop variables -/

/-- Type a loop variable already has: its annotation, or the type of the name
as declared before. -/
def declaredType? (var : Doc.LoopVar) : BuildM (Option Ty) := do
  match var.ty? with
  | some ty => pure (some ty)
  | none => pure ((← find? var.name).map (·.ty))

/-- Identifier of a loop variable that takes values of type `inferred`. A
name already declared with the right type is used again. -/
def loopVar (var : Doc.LoopVar) (inferred : Ty) : BuildM Ident := do
  let existing ← find? var.name
  if existing.any (·.isConst) then
    report var.span (.constantLoopVar var.name)
    declare var.name .error
  else
    match ← declaredType? var with
    | none => declare var.name inferred
    | some ty =>
      reportIf (!ty.same inferred) var.span (.loopClash ty inferred)
      match existing with
      | some id => if id.ty.same ty then pure id else declare var.name ty
      | none => declare var.name ty

def tableVars : List Doc.LoopVar → List Ty → BuildM (List Ident)
  | var :: vars, ty :: types => do
    let id ← loopVar var ty
    let ids ← tableVars vars types
    pure (id :: ids)
  | _, _ => pure []

/-- Loop variables by what is iterated over; `none` when they do not fit. -/
def fittingVars? (target : Expr) (vars : List Doc.LoopVar) : BuildM (Option (List Ident)) := do
  match target.ty with
  | .error => pure none
  | .table types _ | .set types =>
    if types.length = vars.length then
      let ids ← tableVars vars types
      pure (some ids)
    else
      report target.span .loopIndexCount
      pure none
  | .vector _ =>
    match vars with
    | [var] =>
      let ty := (← declaredType? var).getD .count
      if ty.isIntegral || ty.isError then
        let id ← loopVar var ty
        pure (some [id])
      else
        report target.span .vectorLoopIndex
        pure none
    | _ =>
      report target.span .vectorLoopCount
      pure none
  | .string =>
    match vars with
    | [var] =>
      let ty := (← declaredType? var).getD .string
      if ty = .string || ty.isError then
        let id ← loopVar var .string
        pure (some [id])
      else
        report target.span .stringLoopIndex
        pure none
    | _ =>
      report target.span .stringLoopCount
      pure none
  | _ =>
    report target.span .notIterable
    pure none

/-- Placeholders for loop variables that do not fit. -/
def errorVars : List Doc.LoopVar → BuildM (List Ident)
  | [] => pure []
  | var :: vars => do
    let id ← declare var.name .error
    let ids ← errorVars vars
    pure (id :: ids)

/-- Loop variables; there are as many as are written, whatever is wrong. -/
def loopVars (target : Expr) (vars : List Doc.LoopVar) : BuildM (List Ident) := do
  match ← fittingVars? target vars with
  | some ids => pure ids
  | none => errorVars vars

/-- Variable for the entry's value; only tables have one. -/
def valueVar (target : Expr) (var : Doc.LoopVar) : BuildM Ident :=
  match target.ty with
  | .table _ y => loopVar var y
  | .error => declare var.name .error
  | _ => do
    report target.span .valueLoop
    declare var.name .error

/-! ## Checks -/

def noVoid (es : List Expr) : BuildM PUnit :=
  reportAll ((es.filter (·.ty = .void)).map fun e => ⟨.voidValue, e.span, none⟩)

def boolTest (test : Expr) (problem : Problem) : BuildM PUnit :=
  reportIf (!test.isError && !test.ty.isBool) test.span problem

def returnRule (span : Span) (value : Option Expr) : BuildM PUnit := do
  let (rule, problem) := (← get).yieldRule.step span value
  modify fun s => { s with yieldRule := rule }
  reportAll problem.toList

/-- Identifiers that get fresh collections; only collections can. -/
def initIdents (span : Span) : List String → BuildM (List Ident)
  | [] => pure []
  | name :: rest => do
    match ← find? name with
    | some id =>
      if id.ty.isAggregate then
        let ids ← initIdents span rest
        pure (id :: ids)
      else
        report span (.uninitializable name id.ty)
        initIdents span rest
    | none =>
      report span (.unknownName name)
      initIdents span rest

/-- Type labels of a case; a binding is a new variable. -/
def typeCases : List Doc.TypeLabel → BuildM (List TypeCase)
  | [] => pure []
  | l :: rest => do
    let binding ← l.binding?.mapM fun name => declare name l.ty
    let rest ← typeCases rest
    pure (⟨l.ty, binding, l.span⟩ :: rest)

/-- Labels of a case. One with both sorts keeps its values. -/
def caseLabels (values : Option (List Doc.Expr)) (types : Option (List Doc.TypeLabel))
    (span : Span) : BuildM Labels := do
  match values, types with
  | some values, types =>
    reportIf types.isSome span .mixedLabels
    pure (.values (← exprs values))
  | none, some types => pure (.types (← typeCases types))
  | none, none => pure .default

def dispatch (selector : Expr) (cases : List Case) : BuildM (List Case × Dispatch) := do
  let (cases, draft) := Dispatch.ofCases selector cases
  reportAll draft.problems
  modify fun s => { s with breach? := s.breach? <|> draft.breach? }
  pure (cases, .ofDraft draft)

/-! ## Statements -/

mutual

def stmt : Doc.Stmt → BuildM Stmt
  | .list body span => do
    let body ← stmts body
    pure (.list (← place span) body)
  | .bodyList body span => do
    let body ← stmts body
    pure (.bodyList (← place span) body)
  | .expr e span => do
    let e ← expr e
    reportIf (!e.isError && e.isPure) span .valueIgnored
    pure (.expr (← place span) e)
  | .print args span => do
    let args ← exprs args
    noVoid args
    pure (.print (← place span) args)
  | .event name args span => do
    let args ← exprs args
    noVoid args
    pure (.event (← place span) name args)
  | .cond test thenBody elseBody span => do
    let test ← expr test
    let thenBody ← stmt thenBody
    let elseBody ← stmtOption elseBody
    boolTest test .testNotBoolean
    let elseBody ← match elseBody with
      | some s => pure s
      | none => do pure (.null (← number span))
    pure (.cond (← place span) test thenBody elseBody)
  | .while test body span => do
    let test ← expr test
    let body ← stmt body
    boolTest test .whileNotBoolean
    pure (.while (← place span) test body)
  | .for vars value iterable body span => do
    let target ← expr iterable
    let vars ← loopVars target vars
    let value ← value.mapM (valueVar target)
    let body ← stmt body
    pure (.for (← place span) vars value target body)
  | .switch selector cases span => do
    let selector ← expr selector
    let cases ← caseList cases
    let (cases, dispatch) ← dispatch selector cases
    pure (.switch (← place span) selector cases dispatch)
  | .add target span => do
    let target ← expr target
    reportIf (!target.canAdd) span .addStatement
    pure (.add (← place span) target)
  | .delete target span => do
    let target ← expr target
    reportIf (!target.isError && !target.canDelete) span .deleteStatement
    pure (.delete (← place span) target)
  | .next span => do pure (.next (← place span))
  | .break span => do pure (.break (← place span))
  | .fallthrough span => do pure (.fallthrough (← place span))
  | .return value span => do
    let value ← value.mapM expr
    returnRule span value
    pure (.return (← place span) value)
  | .init names span => do
    let ids ← initIdents span names
    pure (.init (← place span) ids)
  | .null span => do pure (.null (← place span))
  | .when test body timeout isReturn span => do
    let test ← expr test
    let body ← stmt body
    let (timeout, timeoutBody) ← timeoutClause timeout
    boolTest test .testNotBoolean
    match timeout with
    | some t =>
      reportIf (!t.isError && t.ty ≠ .time && t.ty ≠ .interval) t.span .timeoutType
    | none => pure ⟨⟩
    pure (.when (← place span) test body timeout timeoutBody isReturn)

def stmts : List Doc.Stmt → BuildM (List Stmt)
  | [] => pure []
  | s :: rest => do
    let s ← stmt s
    let rest ← stmts rest
    pure (s :: rest)

def stmtOption : Option Doc.Stmt → BuildM (Option Stmt)
  | none => pure none
  | some s => do pure (some (← stmt s))

def timeoutClause : Option Doc.Timeout → BuildM (Option Expr × Option Stmt)
  | none => pure (none, none)
  | some (.mk e body) => do
    let e ← expr e
    let body ← stmtOption body
    pure (some e, body)

def caseList : List Doc.Case → BuildM (List Case)
  | [] => pure []
  | .mk values types body span :: rest => do
    let labels ← caseLabels values types span
    let body ← stmt body
    reportIf (!body.lastTag.endsCase) span .caseEnd
    let rest ← caseList rest
    pure (.mk labels body span :: rest)

end

end Vigil.BuildM
