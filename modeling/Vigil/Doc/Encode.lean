import Vigil.Doc.Basic
import Vigil.Json.Basic

/-!
# Vigil.Doc.Encode — unit documents as JSON trees

A node is an object with its form under `t` and its parts as members. Absent
options and unknown spans are left out; the kind and the locals of a unit and
the return mark of a `when` are always written.
-/

namespace Vigil

/-- A member, or none for an absent part. -/
def Json.optional (name : String) : Option Json → List (String × Json)
  | some j => [(name, j)]
  | none => []

/-- An object with its form under `t`. -/
def Json.tagged (tag : String) (members : List (String × Json)) : Json :=
  .obj (("t", .str tag) :: members)

/-- A double as a number. There is none for the infinities and NaNs, and
`null` stands in. -/
def Json.ofDouble (d : Double) : Json := if d.isFinite then .float d else .null

/-! ## Types and spans -/

mutual

def Ty.toJson : Ty → Json
  | .void => .tagged "Void" []
  | .bool => .tagged "Bool" []
  | .int => .tagged "Int" []
  | .count => .tagged "Count" []
  | .double => .tagged "Double" []
  | .string => .tagged "String" []
  | .time => .tagged "Time" []
  | .interval => .tagged "Interval" []
  | .any => .tagged "Any" []
  | .table index y => .tagged "Table" [("index", .arr (toJsonList index)), ("yield_type", toJson y)]
  | .set index => .tagged "Table" [("index", .arr (toJsonList index))]
  | .vector e => .tagged "Vector" [("elem", toJson e)]
  | .error => .tagged "Error" []

def Ty.toJsonList : List Ty → List Json
  | [] => []
  | t :: ts => toJson t :: toJsonList ts

end

def Span.toJson (s : Span) : Json :=
  .obj [("start_line", .int s.startLine), ("start_col", .int s.startCol),
    ("end_line", .int s.endLine), ("end_col", .int s.endCol)]

/-- The span member, left out when the span is unknown. -/
def Span.members (s : Span) : List (String × Json) :=
  if s = .unknown then [] else [("span", s.toJson)]

namespace Doc

/-! ## Parts -/

def Lit.toJson : Lit → Json
  | .bool v => .tagged "Bool" [("v", .bool v)]
  | .int v => .tagged "Int" [("v", .int v.toInt)]
  | .count v => .tagged "Count" [("v", .int v.toNat)]
  | .double v => .tagged "Double" [("v", .ofDouble v)]
  | .str v => .tagged "Str" [("v", .str v)]
  | .interval v => .tagged "Interval" [("v", .ofDouble v)]
  | .time v => .tagged "Time" [("v", .ofDouble v)]

def UnitKind.toJson : UnitKind → Json
  | .toplevel => .tagged "Toplevel" []
  | .function y => .tagged "Function" (Json.optional "yield_type" (y.map Ty.toJson))
  | .event => .tagged "Event" []
  | .hook => .tagged "Hook" []

def LocalDecl.toJson (d : LocalDecl) : Json :=
  .obj ([("name", .str d.name), ("type", d.ty.toJson)]
    ++ Json.optional "const" (d.const?.map Lit.toJson) ++ d.span.members)

def LoopVar.toJson (v : LoopVar) : Json :=
  .obj ([("name", .str v.name)] ++ Json.optional "type" (v.ty?.map Ty.toJson) ++ v.span.members)

def TypeLabel.toJson (l : TypeLabel) : Json :=
  .obj ([("type", l.ty.toJson)] ++ Json.optional "binding" (l.binding?.map .str) ++ l.span.members)

/-! ## Expressions -/

mutual

def Expr.toJson : Expr → Json
  | .const value span => .tagged "Const" ([("value", value.toJson)] ++ span.members)
  | .name ident span => .tagged "Name" ([("name", .str ident)] ++ span.members)
  | .unary op operand span =>
    .tagged "Unary" ([("op", .str op.name), ("operand", toJson operand)] ++ span.members)
  | .binary op lhs rhs span =>
    .tagged "Binary"
      ([("op", .str op.name), ("lhs", toJson lhs), ("rhs", toJson rhs)] ++ span.members)
  | .assign target value span =>
    .tagged "Assign" ([("target", toJson target), ("value", toJson value)] ++ span.members)
  | .index target indices span =>
    .tagged "Index"
      ([("target", toJson target), ("index", .arr (toJsonList indices))] ++ span.members)
  | .member elem target span =>
    .tagged "In" ([("elem", .arr (toJsonList elem)), ("target", toJson target)] ++ span.members)
  | .size operand span => .tagged "Size" ([("operand", toJson operand)] ++ span.members)

def Expr.toJsonList : List Expr → List Json
  | [] => []
  | e :: es => toJson e :: toJsonList es

end

/-! ## Statements -/

mutual

def Stmt.toJson : Stmt → Json
  | .list body span => .tagged "List" ([("body", .arr (toJsonList body))] ++ span.members)
  | .bodyList body span => .tagged "BodyList" ([("body", .arr (toJsonList body))] ++ span.members)
  | .expr e span => .tagged "Expr" ([("expr", e.toJson)] ++ span.members)
  | .print args span => .tagged "Print" ([("args", .arr (Expr.toJsonList args))] ++ span.members)
  | .event name args span =>
    .tagged "Event"
      ([("name", .str name), ("args", .arr (Expr.toJsonList args))] ++ span.members)
  | .cond test thenBody elseBody span =>
    .tagged "If"
      ([("test", test.toJson), ("then_s", toJson thenBody)]
        ++ Json.optional "else_s" (toJsonOption elseBody) ++ span.members)
  | .while test body span =>
    .tagged "While" ([("test", test.toJson), ("body", toJson body)] ++ span.members)
  | .for vars valueVar iterable body span =>
    .tagged "For"
      ([("vars", .arr (vars.map LoopVar.toJson))]
        ++ Json.optional "value_var" (valueVar.map LoopVar.toJson)
        ++ [("iterable", iterable.toJson), ("body", toJson body)] ++ span.members)
  | .switch e cases span =>
    .tagged "Switch" ([("expr", e.toJson), ("cases", .arr (toJsonCases cases))] ++ span.members)
  | .add target span => .tagged "Add" ([("target", target.toJson)] ++ span.members)
  | .delete target span => .tagged "Delete" ([("target", target.toJson)] ++ span.members)
  | .next span => .tagged "Next" span.members
  | .break span => .tagged "Break" span.members
  | .fallthrough span => .tagged "Fallthrough" span.members
  | .return value span =>
    .tagged "Return" (Json.optional "value" (value.map Expr.toJson) ++ span.members)
  | .init names span => .tagged "Init" ([("names", .arr (names.map .str))] ++ span.members)
  | .null span => .tagged "Null" span.members
  | .when test body timeout isReturn span =>
    .tagged "When"
      ([("cond", test.toJson), ("body", toJson body)]
        ++ Json.optional "timeout" (toJsonTimeout timeout)
        ++ [("is_return", .bool isReturn)] ++ span.members)

def Stmt.toJsonList : List Stmt → List Json
  | [] => []
  | s :: ss => Stmt.toJson s :: Stmt.toJsonList ss

def Stmt.toJsonOption : Option Stmt → Option Json
  | none => none
  | some s => some (Stmt.toJson s)

def Stmt.toJsonCases : List Case → List Json
  | [] => []
  | .mk values types body span :: cs =>
    .obj (Json.optional "values" (values.map fun es => .arr (Expr.toJsonList es))
      ++ Json.optional "types" (types.map fun ls => .arr (ls.map TypeLabel.toJson))
      ++ [("body", Stmt.toJson body)] ++ span.members) :: Stmt.toJsonCases cs

def Stmt.toJsonTimeout : Option Timeout → Option Json
  | none => none
  | some (.mk e body) =>
    some (.obj ([("expr", e.toJson)] ++ Json.optional "body" (Stmt.toJsonOption body)))

end

def Unit.toJson (u : Unit) : Json :=
  .obj ([("name", .str u.name), ("kind", u.kind.toJson)] ++ Json.optional "file" (u.file?.map .str)
    ++ [("locals", .arr (u.locals.map LocalDecl.toJson)), ("body", u.body.toJson)])

end Doc

end Vigil
