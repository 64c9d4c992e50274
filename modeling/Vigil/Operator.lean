/-!
# Vigil.Operator — unary and binary operators
-/

namespace Vigil

inductive UnaryOp where
  | negate
  | positive
  | not
deriving DecidableEq, Repr

namespace UnaryOp

def symbol : UnaryOp → String
  | .negate => "-"
  | .positive => "+"
  | .not => "!"

def name : UnaryOp → String
  | .negate => "Negate"
  | .positive => "Positive"
  | .not => "Not"

def all : List UnaryOp := [.negate, .positive, .not]

def ofName? (text : String) : Option UnaryOp := all.find? (·.name == text)

end UnaryOp

/-- Binary operators: arithmetic, comparisons, and the two logical ones. -/
inductive BinaryOp where
  | add | sub | mul | div | mod
  | eq | ne | lt | le | gt | ge
  | and | or
deriving DecidableEq, Repr

namespace BinaryOp

def symbol : BinaryOp → String
  | .add => "+"
  | .sub => "-"
  | .mul => "*"
  | .div => "/"
  | .mod => "%"
  | .eq => "=="
  | .ne => "!="
  | .lt => "<"
  | .le => "<="
  | .gt => ">"
  | .ge => ">="
  | .and => "&&"
  | .or => "||"

def name : BinaryOp → String
  | .add => "Add"
  | .sub => "Sub"
  | .mul => "Mul"
  | .div => "Div"
  | .mod => "Mod"
  | .eq => "Eq"
  | .ne => "Ne"
  | .lt => "Lt"
  | .le => "Le"
  | .gt => "Gt"
  | .ge => "Ge"
  | .and => "And"
  | .or => "Or"

def all : List BinaryOp :=
  [.add, .sub, .mul, .div, .mod, .eq, .ne, .lt, .le, .gt, .ge, .and, .or]

def ofName? (text : String) : Option BinaryOp := all.find? (·.name == text)

def isComparison : BinaryOp → Bool
  | .eq | .ne | .lt | .le | .gt | .ge => true
  | _ => false

def isLogical : BinaryOp → Bool
  | .and | .or => true
  | _ => false

/-- What a comparison answers for an order of its operands. -/
def holds : BinaryOp → Ordering → Bool
  | .eq, o => o == .eq
  | .ne, o => o != .eq
  | .lt, o => o == .lt
  | .le, o => o != .gt
  | .gt, o => o == .gt
  | .ge, o => o != .lt
  | _, _ => false

end BinaryOp

end Vigil
