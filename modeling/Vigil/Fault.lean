import Vigil.Number.Decimal
import Vigil.Operator
import Vigil.Ty

/-!
# Vigil.Fault — what can stop an evaluation

Three things end an evaluation early, and they are kept apart.

* A `Fault` is an error of the script: it ends the statement chain that is
  running, and inside a trigger condition it only means "not ready".
* An `Abort` ends the whole host operation: a number ran out of the range of
  times, a collection cannot grow, or an invariant of the engine is broken.
* `Stop.exhausted` is not an outcome of the script at all: the budget of loop
  rounds given to the evaluator ran out.
-/

namespace Vigil

/-- Values of unfitting types, by what was asked of them. -/
inductive Mismatch where
  | badIndex (collection : Ty)
  | setLookup
  | notIndexable (ty : Ty)
  | notMembership (ty : Ty)
  | noSize (ty : Ty)
  | failedExpression
  | notAssignable (ty : Ty)
  | assignmentTarget
  | addTarget
  | addStatement
  | notDeletable (ty : Ty)
  | deleteStatement
  | vectorIndex (ty : Ty)
  | unaryOperand (op : UnaryOp) (ty : Ty)
  | unordered
  | operands (left : Ty) (op : BinaryOp) (right : Ty)
deriving DecidableEq, Repr

def Mismatch.message : Mismatch → String
  | .badIndex ty => "bad index for " ++ ty.text
  | .setLookup => "cannot look up an element of a set"
  | .notIndexable ty => "cannot index a value of type " ++ ty.text
  | .notMembership ty => "membership test on a value of type " ++ ty.text
  | .noSize ty => "size of a value of type " ++ ty.text
  | .failedExpression => "evaluated an expression that failed to construct"
  | .notAssignable ty => "cannot assign into a value of type " ++ ty.text
  | .assignmentTarget => "illegal assignment target"
  | .addTarget => "add on a non-set"
  | .addStatement => "illegal add statement"
  | .notDeletable ty => "delete from a value of type " ++ ty.text
  | .deleteStatement => "illegal delete statement"
  | .vectorIndex ty => "vector index of type " ++ ty.text
  | .unaryOperand op ty => "unary " ++ op.name ++ " on " ++ ty.text
  | .unordered => "unordered comparison"
  | .operands left op right => left.text ++ " " ++ op.symbol ++ " " ++ right.text

inductive Fault where
  | unbound (name : String)
  | noSuchIndex
  | typeMismatch (cause : Mismatch)
  | divisionByZero
  | notIterable (ty : Ty)
  | iterationLimit (rounds : Nat)
deriving DecidableEq, Repr

def Fault.message : Fault → String
  | .unbound name => "no value bound to '" ++ name ++ "'"
  | .noSuchIndex => "no such index"
  | .typeMismatch cause => "type mismatch: " ++ cause.message
  | .divisionByZero => "division by zero"
  | .notIterable ty => "cannot iterate over a value of type " ++ ty.text
  | .iterationLimit rounds => "while loop exceeded " ++ Digits.padded 1 rounds ++ " iterations"

/-- A broken invariant of the engine: a check that construction makes was
not made. -/
inductive Breach where
  | switchValue (value selector : Ty)
  | caseBinding (value binding : Ty)
  | loopArity (vars : Nat)
  | undecodableKey (collection : Ty)
  | notATable (ty : Ty)
deriving DecidableEq, Repr

def Breach.message : Breach → String
  | .switchValue value selector =>
    "switch expression type mismatch (" ++ value.text ++ "/" ++ selector.text ++ ")"
  | .caseBinding value binding => "cannot bind " ++ value.text ++ " as " ++ binding.text
  | .loopArity vars =>
    "sequential for loop built with " ++ Digits.padded 1 vars ++ " loop variables"
  | .undecodableKey collection => "undecodable key in " ++ collection.text
  | .notATable ty => "table value created with type " ++ ty.text

/-- What ends a whole host operation. -/
inductive Abort where
  | broken (breach : Breach)
  /-- A time or interval left its range. -/
  | timeRange
  /-- A vector was indexed with no index at all. -/
  | emptyIndex
  /-- A sequence of slots cannot grow to the asked size. -/
  | capacity
deriving DecidableEq, Repr

def Abort.message? : Abort → Option String
  | .broken breach => some ("internal error: " ++ breach.message)
  | _ => none

inductive Stop where
  | fault (f : Fault)
  | abort (a : Abort)
  /-- The budget of rounds ran out. -/
  | exhausted
deriving DecidableEq, Repr

end Vigil
