/-!
# Vigil.Ty — static types of scripts

Every identifier and expression has a type. `error` is the type of something
that failed its checks: it agrees with every other type, so that one mistake
is reported once.

* `same` — structural equality up to `error`.
* `canCast` — whether a cast can succeed at run time.
* `promote?` — the type of an arithmetic result.
* `canAssign` — whether a value may be stored, numbers being widened.
-/

namespace Vigil

inductive Ty where
  | void
  | bool
  | int
  | count
  | double
  | string
  | time
  | interval
  /-- Holds a value of any type. -/
  | any
  /-- A map from index tuples to values. -/
  | table (index : List Ty) (yield : Ty)
  | set (index : List Ty)
  | vector (elem : Ty)
  /-- The type of what failed to construct. -/
  | error
deriving Repr, Inhabited

namespace Ty

/-! ## Equality -/

mutual

def beq : Ty → Ty → Bool
  | .void, .void | .bool, .bool | .int, .int | .count, .count | .double, .double
  | .string, .string | .time, .time | .interval, .interval | .any, .any
  | .error, .error => true
  | .table i y, .table j z => beqList i j && beq y z
  | .set i, .set j => beqList i j
  | .vector e, .vector f => beq e f
  | _, _ => false

def beqList : List Ty → List Ty → Bool
  | [], [] => true
  | a :: as, b :: bs => beq a b && beqList as bs
  | _, _ => false

end

mutual

theorem eq_of_beq : ∀ {a b : Ty}, beq a b = true → a = b
  | .void, b, h | .bool, b, h | .int, b, h | .count, b, h | .double, b, h
  | .string, b, h | .time, b, h | .interval, b, h | .any, b, h | .error, b, h => by
    cases b <;> first | rfl | (simp [beq] at h)
  | .table i y, b, h => by
    cases b with
    | table j z =>
      simp only [beq, Bool.and_eq_true] at h
      rw [eq_of_beqList h.1, eq_of_beq h.2]
    | _ => simp [beq] at h
  | .set i, b, h => by
    cases b with
    | set j => simp only [beq] at h; rw [eq_of_beqList h]
    | _ => simp [beq] at h
  | .vector e, b, h => by
    cases b with
    | vector f => simp only [beq] at h; rw [eq_of_beq h]
    | _ => simp [beq] at h

theorem eq_of_beqList : ∀ {as bs : List Ty}, beqList as bs = true → as = bs
  | [], [], _ => rfl
  | [], _ :: _, h => by simp [beqList] at h
  | _ :: _, [], h => by simp [beqList] at h
  | a :: as, b :: bs, h => by
    simp only [beqList, Bool.and_eq_true] at h
    rw [eq_of_beq h.1, eq_of_beqList h.2]

end

mutual

theorem beq_refl : ∀ a : Ty, beq a a = true
  | .void | .bool | .int | .count | .double | .string | .time | .interval | .any
  | .error => by simp [beq]
  | .table i y => by simp [beq, beqList_refl i, beq_refl y]
  | .set i => by simp [beq, beqList_refl i]
  | .vector e => by simp [beq, beq_refl e]

theorem beqList_refl : ∀ as : List Ty, beqList as as = true
  | [] => by simp [beqList]
  | a :: as => by simp [beqList, beq_refl a, beqList_refl as]

end

instance : DecidableEq Ty := fun a b =>
  if h : beq a b = true then .isTrue (eq_of_beq h)
  else .isFalse fun e => h (e ▸ beq_refl a)

/-! ## Kinds -/

def tagName : Ty → String
  | .void => "void"
  | .bool => "bool"
  | .int => "int"
  | .count => "count"
  | .double => "double"
  | .string => "string"
  | .time => "time"
  | .interval => "interval"
  | .any => "any"
  | .table .. | .set _ => "table"
  | .vector _ => "vector"
  | .error => "error"

def isError : Ty → Bool
  | .error => true
  | _ => false

def isBool : Ty → Bool
  | .bool => true
  | _ => false

def isIntegral : Ty → Bool
  | .int | .count => true
  | _ => false

def isNumeric : Ty → Bool
  | .int | .count | .double => true
  | _ => false

def isTable : Ty → Bool
  | .table .. | .set _ => true
  | _ => false

def isSet : Ty → Bool
  | .set _ => true
  | _ => false

/-- Types whose values start out as fresh empty collections. -/
def isAggregate : Ty → Bool
  | .table .. | .set _ | .vector _ => true
  | _ => false

/-- Types whose values can be part of a key. -/
def isAtomic : Ty → Bool
  | .bool | .int | .count | .double | .string | .time | .interval => true
  | _ => false

def index? : Ty → Option (List Ty)
  | .table index _ | .set index => some index
  | _ => none

def yield? : Ty → Option Ty
  | .table _ y => some y
  | .vector e => some e
  | _ => none

/-! ## Relations -/

mutual

/-- Structural equality where `error` matches everything. -/
def same : Ty → Ty → Bool
  | .error, _ | _, .error => true
  | .table i y, .table j z => sameList i j && same y z
  | .set i, .set j => sameList i j
  | .vector e, .vector f => same e f
  | .void, .void | .bool, .bool | .int, .int | .count, .count | .double, .double
  | .string, .string | .time, .time | .interval, .interval | .any, .any => true
  | _, _ => false

def sameList : List Ty → List Ty → Bool
  | [], [] => true
  | a :: as, b :: bs => same a b && sameList as bs
  | _, _ => false

end

/-- Whether a value of type `a` may turn out to be one of type `b`. -/
def canCast (a b : Ty) : Bool := a = .any || b = .any || same a b

/-- Type of an arithmetic result, counts staying counts. -/
def promote? (a b : Ty) : Option Ty :=
  if a = .count ∧ b = .count then some .count
  else if (a = .double ∧ b.isNumeric) ∨ (b = .double ∧ a.isNumeric) then some .double
  else if a.isIntegral ∧ b.isIntegral then some .int
  else none

/-- Whether a value of type `a` may be stored where `b` is declared. -/
def canAssign (a b : Ty) : Bool :=
  same a b || b = .any
    || match b with
      | .double => a.isNumeric
      | .int => a.isIntegral
      | _ => false

/-! ## Text -/

mutual

def text : Ty → String
  | .table index y => "table[" ++ ", ".intercalate (textList index) ++ "] of " ++ text y
  | .set index => "set[" ++ ", ".intercalate (textList index) ++ "]"
  | .vector e => "vector of " ++ text e
  | .void => "void"
  | .bool => "bool"
  | .int => "int"
  | .count => "count"
  | .double => "double"
  | .string => "string"
  | .time => "time"
  | .interval => "interval"
  | .any => "any"
  | .error => "error"

def textList : List Ty → List String
  | [] => []
  | t :: ts => text t :: textList ts

end

end Ty

end Vigil
