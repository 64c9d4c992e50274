import Vigil.Doc.Basic
import Vigil.Json.Reader
import Vigil.Number.Word

/-!
# Vigil.Doc.Decode — unit documents from JSON trees

Reads the form that `Doc.Unit.toJson` writes, and a little more: members may
stand in any order and unknown members are ignored. A known member may not be
repeated, a required one not be missing, and `null` stands only for an absent
option. Integers must be written as such; a double may be written as an
integer. An array of values may stand for an object (`Json.record?`,
`Json.form?`), and a number for the tag of a node inside another one.

`Doc.Unit.shape` names the members of a unit, its locals and their spans.
Values of other members there are only held to the grammar of JSON; inside
types, statements and expressions every value has to be sound.

The readers of nested forms take a bound on the nesting of the tree, and
`Json.depth` of the tree is always enough.
-/

namespace Vigil

namespace Json

/-! ## Members -/

/-- The member of that name, if there is one; no answer when it is repeated. -/
def only? (name : String) (members : List (String × Json)) : Option (Option Json) :=
  match members.filter (·.1 == name) with
  | [] => some none
  | [(_, j)] => some (some j)
  | _ => none

def required? {α : Type} (members : List (String × Json)) (name : String) (read : Json → Option α) :
    Option α := do
  let j ← (← only? name members)
  read j

/-- A member that may be missing or `null`. -/
def optional? {α : Type} (members : List (String × Json)) (name : String) (read : Json → Option α) :
    Option (Option α) := do
  match ← only? name members with
  | none => pure none
  | some .null => pure none
  | some j => (read j).map some

/-- A member that may be missing and then has a given value. -/
def withDefault? {α : Type} (members : List (String × Json)) (name : String) (fallback : α)
    (read : Json → Option α) : Option α := do
  match ← only? name members with
  | none => pure fallback
  | some j => read j

/-- The members of a record. An array has their values in the order of the names,
and at least the given number of them. -/
def record? (names : List String) (least : Nat) : Json → Option (List (String × Json))
  | .obj members => some members
  | .arr items =>
    if least ≤ items.length ∧ items.length ≤ names.length then some (names.zip items) else none
  | _ => none

def items? : Json → Option (List Json)
  | .arr items => some items
  | _ => none

def bool? : Json → Option Bool
  | .bool b => some b
  | _ => none

def str? : Json → Option String
  | .str s => some s
  | _ => none

def nat? : Json → Option Nat
  | .int i => if 0 ≤ i then some i.toNat else none
  | _ => none

def int64? : Json → Option Int64
  | .int i => if Word.IsSigned i then some (Int64.ofInt i) else none
  | _ => none

def uint64? : Json → Option UInt64
  | .int i => if Word.IsUnsigned i then some (UInt64.ofNat i.toNat) else none
  | _ => none

/-- A number; integers are widened. -/
def double? : Json → Option Double
  | .int i => some (Double.ofInt i)
  | .float d => some d
  | _ => none

/-- Every item of an array, read in order. -/
def listOf? {α : Type} (read : Json → Option α) (j : Json) : Option (List α) := do
  (← j.items?).mapM read

/-- The forms of a node in order: their tags, and of each the names of its members
and how many of them an array has at least. -/
abbrev Forms := List (String × List String × Nat)

/-- Forms that end with a span, which may be left out. -/
def spanned (forms : Forms) : Forms :=
  forms.map fun (tag, names, least) => (tag, names ++ ["span"], least)

/-- The tag of a node. A node inside another may be told by the number of its form. -/
def tag? (forms : Forms) (inside : Bool) : Json → Option String
  | .str s => some s
  | .int i => if inside ∧ 0 ≤ i then forms[i.toNat]?.map Prod.fst else none
  | _ => none

/-- The form of a node and its members: an object with the tag under `t`, or an
array that begins with it. -/
def form? (forms : Forms) (inside : Bool) : Json → Option (String × List (String × Json))
  | .obj members => do
    let tag ← required? members "t" (tag? forms inside)
    pure (tag, members)
  | .arr (t :: items) => do
    let tag ← tag? forms inside t
    let (names, least) ← forms.lookup tag
    let members ← record? names least (.arr items)
    pure (tag, members)
  | _ => none

/-- Name of a plain alternative: a string, or an object with `null` or an empty
object under it. -/
def alternative? : Json → Option String
  | .str s => some s
  | .obj [(s, .null)] => some s
  | .obj [(s, .obj [])] => some s
  | _ => none

end Json

/-! ## Types and spans -/

def Ty.forms : Json.Forms :=
  ["Void", "Bool", "Int", "Count", "Double", "String", "Time", "Interval", "Any"].map (·, [], 0)
    ++ [("Table", ["index", "yield_type"], 1), ("Vector", ["elem"], 1), ("Error", [], 0)]

def Ty.ofJson? : (depth : Nat) → (inside : Bool) → Json → Option Ty
  | 0, _, _ => none
  | depth + 1, inside, j => do
    let (tag, members) ← j.form? forms inside
    match tag with
    | "Void" => pure .void
    | "Bool" => pure .bool
    | "Int" => pure .int
    | "Count" => pure .count
    | "Double" => pure .double
    | "String" => pure .string
    | "Time" => pure .time
    | "Interval" => pure .interval
    | "Any" => pure .any
    | "Error" => pure .error
    | "Table" => do
      let index ← Json.required? members "index" (Json.listOf? (ofJson? depth true))
      match ← Json.optional? members "yield_type" (ofJson? depth true) with
      | some y => pure (.table index y)
      | none => pure (.set index)
    | "Vector" => do
      let elem ← Json.required? members "elem" (ofJson? depth true)
      pure (.vector elem)
    | _ => none

/-- A type from a tree of any depth. -/
def Ty.read? (j : Json) : Option Ty := Ty.ofJson? (j.depth + 1) false j

/-- A type that is part of another node. -/
def Ty.part? (j : Json) : Option Ty := Ty.ofJson? (j.depth + 1) true j

def Span.ofJson? (j : Json) : Option Span := do
  let members ← j.record? ["start_line", "start_col", "end_line", "end_col"] 4
  let startLine ← Json.required? members "start_line" Json.nat?
  let startCol ← Json.required? members "start_col" Json.nat?
  let endLine ← Json.required? members "end_line" Json.nat?
  let endCol ← Json.required? members "end_col" Json.nat?
  pure ⟨startLine, startCol, endLine, endCol⟩

/-- The span member of a node, unknown when it is missing. -/
def Span.read? (members : List (String × Json)) : Option Span :=
  Json.withDefault? members "span" .unknown Span.ofJson?

namespace Doc

/-! ## Parts -/

def Lit.forms : Json.Forms :=
  ["Bool", "Int", "Count", "Double", "Str", "Interval", "Time"].map (·, ["v"], 1)

def Lit.ofJson? (inside : Bool) (j : Json) : Option Lit := do
  let (tag, members) ← j.form? forms inside
  match tag with
  | "Bool" => (Json.required? members "v" Json.bool?).map .bool
  | "Int" => (Json.required? members "v" Json.int64?).map .int
  | "Count" => (Json.required? members "v" Json.uint64?).map .count
  | "Double" => (Json.required? members "v" Json.double?).map .double
  | "Str" => (Json.required? members "v" Json.str?).map .str
  | "Interval" => (Json.required? members "v" Json.double?).map .interval
  | "Time" => (Json.required? members "v" Json.double?).map .time
  | _ => none

def UnitKind.ofJson? (j : Json) : Option UnitKind := do
  let (tag, members) ← j.form?
    [("Toplevel", [], 0), ("Function", ["yield_type"], 0), ("Event", [], 0), ("Hook", [], 0)] false
  match tag with
  | "Toplevel" => pure .toplevel
  | "Function" => (Json.optional? members "yield_type" Ty.part?).map .function
  | "Event" => pure .event
  | "Hook" => pure .hook
  | _ => none

def LocalDecl.ofJson? (j : Json) : Option LocalDecl := do
  let members ← j.record? ["name", "type", "const", "span"] 2
  let name ← Json.required? members "name" Json.str?
  let ty ← Json.required? members "type" Ty.read?
  let const? ← Json.optional? members "const" (Lit.ofJson? false)
  let span ← Span.read? members
  pure ⟨name, ty, const?, span⟩

def LoopVar.ofJson? (j : Json) : Option LoopVar := do
  let members ← j.record? ["name", "type", "span"] 1
  let name ← Json.required? members "name" Json.str?
  let ty? ← Json.optional? members "type" Ty.part?
  let span ← Span.read? members
  pure ⟨name, ty?, span⟩

def TypeLabel.ofJson? (j : Json) : Option TypeLabel := do
  let members ← j.record? ["type", "binding", "span"] 1
  let ty ← Json.required? members "type" Ty.part?
  let binding? ← Json.optional? members "binding" Json.str?
  let span ← Span.read? members
  pure ⟨ty, binding?, span⟩

def unaryOp? (j : Json) : Option UnaryOp := do UnaryOp.ofName? (← j.alternative?)

def binaryOp? (j : Json) : Option BinaryOp := do BinaryOp.ofName? (← j.alternative?)

/-! ## Expressions -/

def Expr.forms : Json.Forms := Json.spanned
  [("Const", ["value"], 1), ("Name", ["name"], 1), ("Unary", ["op", "operand"], 2),
    ("Binary", ["op", "lhs", "rhs"], 3), ("Assign", ["target", "value"], 2),
    ("Index", ["target", "index"], 2), ("In", ["elem", "target"], 2), ("Size", ["operand"], 1)]

def Expr.ofJson? : (depth : Nat) → (inside : Bool) → Json → Option Expr
  | 0, _, _ => none
  | depth + 1, inside, j => do
    let (tag, members) ← j.form? forms inside
    let span ← Span.read? members
    match tag with
    | "Const" => do
      let value ← Json.required? members "value" (Lit.ofJson? true)
      pure (.const value span)
    | "Name" => do
      let ident ← Json.required? members "name" Json.str?
      pure (.name ident span)
    | "Unary" => do
      let op ← Json.required? members "op" unaryOp?
      let operand ← Json.required? members "operand" (ofJson? depth true)
      pure (.unary op operand span)
    | "Binary" => do
      let op ← Json.required? members "op" binaryOp?
      let lhs ← Json.required? members "lhs" (ofJson? depth true)
      let rhs ← Json.required? members "rhs" (ofJson? depth true)
      pure (.binary op lhs rhs span)
    | "Assign" => do
      let target ← Json.required? members "target" (ofJson? depth true)
      let value ← Json.required? members "value" (ofJson? depth true)
      pure (.assign target value span)
    | "Index" => do
      let target ← Json.required? members "target" (ofJson? depth true)
      let index ← Json.required? members "index" (Json.listOf? (ofJson? depth true))
      pure (.index target index span)
    | "In" => do
      let elem ← Json.required? members "elem" (Json.listOf? (ofJson? depth true))
      let target ← Json.required? members "target" (ofJson? depth true)
      pure (.member elem target span)
    | "Size" => do
      let operand ← Json.required? members "operand" (ofJson? depth true)
      pure (.size operand span)
    | _ => none

/-- An expression from a tree of any depth. -/
def Expr.read? (j : Json) : Option Expr := Expr.ofJson? (j.depth + 1) false j

/-- An expression that is part of another node. -/
def Expr.part? (j : Json) : Option Expr := Expr.ofJson? (j.depth + 1) true j

/-! ## Statements -/

def Case.ofJson? (stmt : Json → Option Stmt) (j : Json) : Option Case := do
  let members ← j.record? ["values", "types", "body", "span"] 3
  let values ← Json.optional? members "values" (Json.listOf? Expr.part?)
  let types ← Json.optional? members "types" (Json.listOf? TypeLabel.ofJson?)
  let body ← Json.required? members "body" stmt
  let span ← Span.read? members
  pure (.mk values types body span)

def Timeout.ofJson? (stmt : Json → Option Stmt) (j : Json) : Option Timeout := do
  let members ← j.record? ["expr", "body"] 1
  let expr ← Json.required? members "expr" Expr.part?
  let body ← Json.optional? members "body" stmt
  pure (.mk expr body)

def Stmt.forms : Json.Forms := Json.spanned
  [("List", ["body"], 1), ("BodyList", ["body"], 1), ("Expr", ["expr"], 1), ("Print", ["args"], 1),
    ("Event", ["name", "args"], 2), ("If", ["test", "then_s", "else_s"], 2),
    ("While", ["test", "body"], 2), ("For", ["vars", "value_var", "iterable", "body"], 4),
    ("Switch", ["expr", "cases"], 2), ("Add", ["target"], 1), ("Delete", ["target"], 1),
    ("Next", [], 0), ("Break", [], 0), ("Fallthrough", [], 0), ("Return", ["value"], 0),
    ("Init", ["names"], 1), ("Null", [], 0), ("When", ["cond", "body", "timeout", "is_return"], 2)]

def Stmt.ofJson? : (depth : Nat) → (inside : Bool) → Json → Option Stmt
  | 0, _, _ => none
  | depth + 1, inside, j => do
    let (tag, members) ← j.form? forms inside
    let span ← Span.read? members
    match tag with
    | "List" => do
      let body ← Json.required? members "body" (Json.listOf? (ofJson? depth true))
      pure (.list body span)
    | "BodyList" => do
      let body ← Json.required? members "body" (Json.listOf? (ofJson? depth true))
      pure (.bodyList body span)
    | "Expr" => do
      let e ← Json.required? members "expr" Expr.part?
      pure (.expr e span)
    | "Print" => do
      let args ← Json.required? members "args" (Json.listOf? Expr.part?)
      pure (.print args span)
    | "Event" => do
      let name ← Json.required? members "name" Json.str?
      let args ← Json.required? members "args" (Json.listOf? Expr.part?)
      pure (.event name args span)
    | "If" => do
      let test ← Json.required? members "test" Expr.part?
      let thenBody ← Json.required? members "then_s" (ofJson? depth true)
      let elseBody ← Json.optional? members "else_s" (ofJson? depth true)
      pure (.cond test thenBody elseBody span)
    | "While" => do
      let test ← Json.required? members "test" Expr.part?
      let body ← Json.required? members "body" (ofJson? depth true)
      pure (.while test body span)
    | "For" => do
      let vars ← Json.required? members "vars" (Json.listOf? LoopVar.ofJson?)
      let valueVar ← Json.optional? members "value_var" LoopVar.ofJson?
      let iterable ← Json.required? members "iterable" Expr.part?
      let body ← Json.required? members "body" (ofJson? depth true)
      pure (.for vars valueVar iterable body span)
    | "Switch" => do
      let e ← Json.required? members "expr" Expr.part?
      let cases ← Json.required? members "cases" (Json.listOf? (Case.ofJson? (ofJson? depth true)))
      pure (.switch e cases span)
    | "Add" => do
      let target ← Json.required? members "target" Expr.part?
      pure (.add target span)
    | "Delete" => do
      let target ← Json.required? members "target" Expr.part?
      pure (.delete target span)
    | "Next" => pure (.next span)
    | "Break" => pure (.break span)
    | "Fallthrough" => pure (.fallthrough span)
    | "Return" => do
      let value ← Json.optional? members "value" Expr.part?
      pure (.return value span)
    | "Init" => do
      let names ← Json.required? members "names" (Json.listOf? Json.str?)
      pure (.init names span)
    | "Null" => pure (.null span)
    | "When" => do
      let test ← Json.required? members "cond" Expr.part?
      let body ← Json.required? members "body" (ofJson? depth true)
      let timeout ← Json.optional? members "timeout" (Timeout.ofJson? (ofJson? depth true))
      let isReturn ← Json.withDefault? members "is_return" false Json.bool?
      pure (.when test body timeout isReturn span)
    | _ => none

/-! ## Units -/

def spanShape : Json.Shape :=
  .members [("start_line", .whole), ("start_col", .whole), ("end_line", .whole), ("end_col", .whole)]

def LocalDecl.shape : Json.Shape :=
  .members [("name", .whole), ("type", .whole), ("const", .whole), ("span", spanShape)]

def Unit.shape : Json.Shape :=
  .members [("name", .whole), ("kind", .whole), ("file", .whole),
    ("locals", .items LocalDecl.shape), ("body", .whole)]

def Unit.ofJson? (j : Json) : Option Unit := do
  let members ← j.record? ["name", "kind", "file", "locals", "body"] 5
  let name ← Json.required? members "name" Json.str?
  let kind ← Json.withDefault? members "kind" .toplevel UnitKind.ofJson?
  let file? ← Json.optional? members "file" Json.str?
  let locals ← Json.withDefault? members "locals" [] (Json.listOf? LocalDecl.ofJson?)
  let body ← Json.required? members "body" (Stmt.ofJson? (j.depth + 1) false)
  pure ⟨name, kind, file?, locals, body⟩

end Doc

end Vigil
