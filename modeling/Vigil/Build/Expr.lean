import Vigil.Build.Scope

/-!
# Vigil.Build.Expr — building expressions

Names are resolved and every node gets its type. Parts are built from left to
right, and what is wrong with a part is reported before what is wrong with
the whole.
-/

namespace Vigil

/-- Value of a literal; a time may lie outside the range of times. -/
def Doc.Lit.value? : Doc.Lit → Option Value
  | .bool v => some (.bool v)
  | .int v => some (.int v)
  | .count v => some (.count v)
  | .double v => some (.double v)
  | .str v => some (.str (Utf8.encode v))
  | .interval v => some (.interval (Interval.ofSeconds v))
  | .time v => (Instant.ofSeconds? v).map .time

namespace BuildM

mutual

def expr : Doc.Expr → BuildM Expr
  | .const lit span =>
    match lit.value? with
    | some v => pure (.constant v span)
    | none => do
      report span .invalidLiteral
      pure (.error ⟨.error, span⟩)
  | .name name span => do
    match ← find? name with
    | some id => pure (.name id ⟨id.ty, span⟩)
    | none =>
      report span (.unknownName name)
      pure (.error ⟨.error, span⟩)
  | .unary op operand span => do
    let operand ← expr operand
    let ty ← checked (Verdict.unary op operand.ty span)
    pure (.unary op operand ⟨ty, span⟩)
  | .binary op lhs rhs span => do
    let lhs ← expr lhs
    let rhs ← expr rhs
    let ty ← checked (Verdict.binary op lhs.ty rhs.ty span)
    pure (.binary op lhs rhs ⟨ty, span⟩)
  | .assign target value span => do
    let target ← expr target
    let value ← expr value
    let ty ← checked (Verdict.assign target value span)
    pure (.assign target value ⟨ty, span⟩)
  | .index target is span => do
    let target ← expr target
    let is ← exprs is
    let ty ← checked (Verdict.index target.ty is span)
    pure (.index target is ⟨ty, span⟩)
  | .member elem target span => do
    let elem ← exprs elem
    let target ← expr target
    let ty ← checked (Verdict.member elem target.ty span)
    pure (.member elem target ⟨ty, span⟩)
  | .size operand span => do
    let operand ← expr operand
    let ty ← checked (Verdict.size operand.ty span)
    pure (.size operand ⟨ty, span⟩)

def exprs : List Doc.Expr → BuildM (List Expr)
  | [] => pure []
  | e :: es => do
    let e ← expr e
    let es ← exprs es
    pure (e :: es)

end

end BuildM

end Vigil
