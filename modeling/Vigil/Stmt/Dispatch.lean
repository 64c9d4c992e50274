import Vigil.Expr.Check
import Vigil.Stmt.Basic

/-!
# Vigil.Stmt.Dispatch — where a switch goes

The arms of a switch are labelled by constant values or by types. Value
labels are found by the key of the value, the same key a table would use, and
type labels are tried in the order they are written. A switch that mixes the
two is reported, and dispatches on types first.

* `Dispatch.ofCases` — checks the labels and collects where they lead.
* `Dispatch.find` — the arm a value selects.
-/

namespace Vigil.Dispatch

/-! ## Collecting labels -/

/-- Labels collected so far, with the locations later ones may conflict with. -/
structure Draft where
  values : List (Key × Nat × Span)
  types : List TypeArm
  default? : Option (Nat × Span)
  problems : List Diagnostic
  /-- Set by a label that passed all checks and has no key all the same. -/
  breach? : Option Breach

namespace Draft

def empty : Draft := ⟨[], [], none, [], none⟩

def report (problem : Problem) (span : Span) (related : Option Span) (d : Draft) : Draft :=
  { d with problems := d.problems ++ [⟨problem, span, related⟩] }

def labelled? (key : Key) (d : Draft) : Option Span :=
  (d.values.find? fun (k, _) => k == key).map fun (_, _, span) => span

/-- One value label. It is replaced by the constant it stands for. -/
def valueLabel (selector : Expr) (arm : Nat) (label : Expr) (d : Draft) : Expr × Draft :=
  if label.isError then (label, d)
  else
    match label.fold? with
    | none => (label, d.report .labelNotConstant label.span none)
    | some v =>
      let constant := Expr.constant v label.span
      if selector.isError then (constant, d)
      else
        match Key.encode? true [selector.ty] [v] with
        | none => (constant, { d with breach? := some (.switchValue v.atomTy selector.ty) })
        | some key =>
          match d.labelled? key with
          | some first => (constant, d.report .duplicateLabel label.span (some first))
          | none => (constant, { d with values := d.values ++ [(key, arm, label.span)] })

def valueLabels (selector : Expr) (arm : Nat) : List Expr → Draft → List Expr × Draft
  | [], d => ([], d)
  | label :: rest, d =>
    let (label, d) := d.valueLabel selector arm label
    let (rest, d) := valueLabels selector arm rest d
    (label :: rest, d)

def typeLabel (selector : Expr) (arm : Nat) (d : Draft) (label : TypeCase) : Draft :=
  if !selector.ty.canCast label.ty then d.report .labelCast label.span none
  else if d.types.any fun t => t.ty.same label.ty then d.report .duplicateLabel label.span none
  else { d with types := d.types ++ [⟨label.ty, label.binding?, arm⟩] }

def labels (selector : Expr) (arm : Nat) (span : Span) : Labels → Draft → Labels × Draft
  | .values es, d =>
    if !selector.isError && !selector.ty.isAtomic then
      (.values es, d.report .selectorNotAtomic selector.span none)
    else if es.any fun e => !e.ty.same selector.ty then
      (.values es, d.report .labelType span (some selector.span))
    else
      let (es, d) := valueLabels selector arm es d
      (.values es, d)
  | .types ts, d => (.types ts, ts.foldl (typeLabel selector arm) d)
  | .default, d =>
    match d.default? with
    | some (_, first) => (.default, d.report .repeatedDefault span (some first))
    | none => (.default, { d with default? := some (arm, span) })

def cases (selector : Expr) : (arm : Nat) → List Case → Draft → List Case × Draft
  | _, [], d => ([], d)
  | arm, .mk ls body span :: rest, d =>
    let (ls, d) := labels selector arm span ls d
    let (rest, d) := cases selector (arm + 1) rest d
    (.mk ls body span :: rest, d)

end Draft

/-- Whether some arm has value labels and another has type labels. -/
def isMixed (cases : List Case) : Bool :=
  (cases.any fun c => match c.labels with | .values _ => true | _ => false)
    && cases.any fun c => match c.labels with | .types _ => true | _ => false

def ofDraft (d : Draft) : Dispatch :=
  ⟨d.values.map fun (k, arm, _) => (k, arm), d.types, d.default?.map (·.1)⟩

/-- Check the arms of a switch: the arms with their labels made constants,
and all that was collected from them. -/
def ofCases (selector : Expr) (cases : List Case) : List Case × Draft :=
  let (arms, d) := Draft.cases selector 0 cases .empty
  (arms, if isMixed cases then d.report .mixedLabels selector.span none else d)

/-! ## Dispatching -/

/-- Arm of a value label with the value's key. A value that cannot have a key
of the selector's type breaks an invariant. -/
def findValue (d : Dispatch) (h : Heap) (selector : Ty) (v : Value) : Except Abort (Option Nat) :=
  if d.values.isEmpty then pure none
  else
    match Key.encode? true [selector] [v] with
    | some key => pure (d.values.lookup key)
    | none => throw (.broken (.switchValue (h.typeOf v) selector))

/-- The arm a value selects, and the identifier that arm binds it to. -/
def find (d : Dispatch) (h : Heap) (selector : Ty) (v : Value) :
    Except Abort (Option Nat × Option Ident) := do
  let arm ← d.findValue h selector v
  match d.types.find? fun t => h.canView v t.ty, arm with
  | some t, _ => pure (some t.arm, t.binding?)
  | none, some arm => pure (some arm, none)
  | none, none => pure (d.default?, none)

end Vigil.Dispatch
