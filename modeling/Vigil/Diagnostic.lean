import Vigil.Number.Decimal
import Vigil.Operator
import Vigil.Span
import Vigil.Ty

/-!
# Vigil.Diagnostic — problems found while building a unit

Building never stops at a mistake. It reports a `Problem` at a location, and
a unit with an error is refused when it is loaded. Only a value that nobody
uses is a warning; everything else is an error.
-/

namespace Vigil

inductive Problem where
  -- expressions
  | booleanOperand
  | booleanOperands
  | arithmeticOperand
  | arithmeticOperands (left : Ty) (op : BinaryOp) (right : Ty)
  | comparison (left : Ty) (op : BinaryOp) (right : Ty)
  | moduloOperands
  | constantTarget (name : String)
  | assignmentTarget
  | assignmentClash (target value : Ty)
  | notIndexable (ty : Ty)
  | indexCount (expected got : Nat)
  | indexClash (got expected : Ty)
  | vectorIndexCount
  | vectorIndexType
  | vectorMembership
  | stringMembership
  | notACollection (ty : Ty)
  | noSize (ty : Ty)
  | invalidLiteral
  | unknownName (name : String)
  -- statements
  | valueIgnored
  | voidValue
  | testNotBoolean
  | whileNotBoolean
  | addStatement
  | deleteStatement
  | timeoutType
  | uninitializable (name : String) (ty : Ty)
  -- loops
  | loopIndexCount
  | vectorLoopCount
  | vectorLoopIndex
  | stringLoopCount
  | stringLoopIndex
  | notIterable
  | valueLoop
  | constantLoopVar (name : String)
  | loopClash (declared inferred : Ty)
  -- switches
  | caseEnd
  | selectorNotAtomic
  | labelType
  | labelNotConstant
  | duplicateLabel
  | labelCast
  | repeatedDefault
  | mixedLabels
  -- declarations and returns
  | redeclared (name : String)
  | constantClash (name : String) (got declared : Ty)
  | returnOutside
  | returnWithValue
  | returnWithoutValue
  | returnClash (got declared : Ty)
deriving DecidableEq, Repr

namespace Problem

def quoted (name : String) : String := "'" ++ name ++ "'"

def versus (a b : Ty) : String := "(" ++ a.text ++ " vs. " ++ b.text ++ ")"

def message : Problem → String
  | .booleanOperand => "requires boolean operand"
  | .booleanOperands => "requires boolean operands"
  | .arithmeticOperand => "requires arithmetic operand"
  | .arithmeticOperands a op b =>
    "requires arithmetic operands (" ++ a.text ++ " " ++ op.symbol ++ " " ++ b.text ++ ")"
  | .comparison a op b =>
    "illegal comparison (" ++ a.text ++ " " ++ op.symbol ++ " " ++ b.text ++ ")"
  | .moduloOperands => "modulo requires integral operands"
  | .constantTarget name => "cannot assign to constant " ++ quoted name
  | .assignmentTarget => "illegal assignment target"
  | .assignmentClash target value =>
    "type clash in assignment (" ++ target.text ++ " := " ++ value.text ++ ")"
  | .notIndexable ty => "not an indexable type: " ++ ty.text
  | .indexCount expected got =>
    "wrong number of indices (expected " ++ Digits.padded 1 expected ++ ", got "
      ++ Digits.padded 1 got ++ ")"
  | .indexClash got expected => "index type mismatch " ++ versus got expected
  | .vectorIndexCount => "vector index must be a single value"
  | .vectorIndexType => "vector index must be integral"
  | .vectorMembership => "vector membership requires a single integral index"
  | .stringMembership => "string membership requires a string"
  | .notACollection ty => "not a table, set or vector: " ++ ty.text
  | .noSize ty => "size of a value of type " ++ ty.text ++ " is undefined"
  | .invalidLiteral => "invalid literal"
  | .unknownName name => "unknown identifier " ++ quoted name
  | .valueIgnored => "expression value ignored"
  | .voidValue => "value of type void illegal"
  | .testNotBoolean => "conditional in test must be boolean"
  | .whileNotBoolean => "while conditional must be boolean"
  | .addStatement => "illegal add statement"
  | .deleteStatement => "illegal delete statement"
  | .timeoutType => "when timeout requires a time or time interval"
  | .uninitializable name ty =>
    quoted name ++ " of type " ++ ty.text ++ " cannot be initialized as an aggregate"
  | .loopIndexCount => "wrong index size"
  | .vectorLoopCount => "iterating over a vector requires only a single index type"
  | .vectorLoopIndex => "vector index in \"for\" loop must be integral"
  | .stringLoopCount => "iterating over a string requires only a single index type"
  | .stringLoopIndex => "string index in \"for\" loop must be string"
  | .notIterable => "target to iterate over must be a table, set, vector, or string"
  | .valueLoop => "key value for loops only support iteration over tables"
  | .constantLoopVar name => "cannot use constant " ++ quoted name ++ " as a loop variable"
  | .loopClash declared inferred => "type clash in iteration " ++ versus declared inferred
  | .caseEnd => "case block must end in break/fallthrough/return statement"
  | .selectorNotAtomic =>
    "switch expression must be of an atomic type when cases are expressions"
  | .labelType => "case expression type differs from switch type"
  | .labelNotConstant => "case label expression isn't constant"
  | .duplicateLabel => "duplicate case label"
  | .labelCast => "cannot cast switch expression to case type"
  | .repeatedDefault => "multiple default labels"
  | .mixedLabels => "cannot mix cases with expressions and types"
  | .redeclared name => quoted name ++ " redeclared"
  | .constantClash name got declared =>
    "type clash in constant " ++ quoted name ++ " " ++ versus got declared
  | .returnOutside => "return statement outside of function/event"
  | .returnWithValue => "return statement cannot have an expression"
  | .returnWithoutValue => "return statement needs expression"
  | .returnClash got declared => "type clash in return " ++ versus got declared

/-- Everything but an ignored value blocks loading. -/
def isError : Problem → Bool
  | .valueIgnored => false
  | _ => true

end Problem

structure Diagnostic where
  problem : Problem
  span : Span
  /-- Earlier location the problem conflicts with. -/
  related : Option Span
deriving DecidableEq, Repr

namespace Diagnostic

def isError (d : Diagnostic) : Bool := d.problem.isError

def text (d : Diagnostic) : String :=
  let severity := if d.isError then "error" else "warning"
  let place := severity ++ " at line " ++ Digits.padded 1 d.span.startLine ++ ", col "
    ++ Digits.padded 1 d.span.startCol ++ ": " ++ d.problem.message
  match d.related with
  | some r => place ++ " (see line " ++ Digits.padded 1 r.startLine ++ ")"
  | none => place

def errorCount (ds : List Diagnostic) : Nat := ds.countP isError

end Diagnostic

end Vigil
