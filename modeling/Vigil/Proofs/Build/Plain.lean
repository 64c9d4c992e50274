import Mathlib.Data.Bool.Basic
import Vigil.Build.Expr
import Vigil.Proofs.Typing.Heap

/-!
# Vigil.Proofs.Build.Plain — units that declare only real types

A front end may hand over a unit that declares something of type `error`, the
type that agrees with every other. A unit is plain when no declared type
mentions it and every string literal is short enough to be part of a key.
-/

namespace Vigil.Doc

variable {lit : Lit} {v : Value}

/-- A string literal fits a key. -/
def Lit.plain : Lit → Bool
  | .str v => (Utf8.encode v).length < Nat.pow 256 4
  | _ => true

/-- A literal has the type of its value. -/
theorem Lit.fits_of_value (h : lit.plain = true) (hv : lit.value? = some v) : v.Fits v.atomTy := by
  cases lit with
  | str s =>
    cases hv
    have hshort : (Utf8.encode s).length < Nat.pow 256 4 := of_decide_eq_true h
    exact ⟨rfl, rfl, hshort⟩
  | time d =>
    obtain ⟨t, -, rfl⟩ := Option.map_eq_some_iff.mp hv
    exact ⟨rfl, rfl, trivial⟩
  | _ =>
    cases hv
    exact ⟨rfl, rfl, trivial⟩

/-- It keeps a type of its own when it is widened. -/
theorem Lit.fits_of_coerce (ty : Ty) (h : lit.plain = true) (hv : lit.value? = some v) :
    (v.coerce ty).Fits (v.coerce ty).atomTy := by
  unfold Value.coerce
  split
  · exact ⟨rfl, rfl, trivial⟩
  · exact ⟨rfl, rfl, trivial⟩
  · exact ⟨rfl, rfl, trivial⟩
  · exact fits_of_value h hv

namespace Expr

mutual

def plain : Expr → Bool
  | .const lit _ => lit.plain
  | .name .. => true
  | .unary _ e _ | .size e _ => plain e
  | .binary _ l r _ => plain l && plain r
  | .assign t v _ => plain t && plain v
  | .index t is _ => plain t && plainList is
  | .member es t _ => plainList es && plain t

def plainList : List Expr → Bool
  | [] => true
  | e :: es => plain e && plainList es

end

end Expr

def LoopVar.plain (var : LoopVar) : Bool := var.ty?.all Ty.clean

def TypeLabel.plain (l : TypeLabel) : Bool := l.ty.clean

def LocalDecl.plain (d : LocalDecl) : Bool := d.ty.clean && d.const?.all Lit.plain

/-- The strings in the value labels of an arm are short. -/
def Case.plainLabels : Case → Bool
  | .mk values .. => values.all Expr.plainList

namespace Stmt

mutual

def plain : Stmt → Bool
  | .list body _ | .bodyList body _ => plainList body
  | .expr e _ => e.plain
  | .print args _ | .event _ args _ => Expr.plainList args
  | .cond test thenBody elseBody _ => test.plain && plain thenBody && plainOption elseBody
  | .while test body _ => test.plain && plain body
  | .for vars value iterable body _ =>
    vars.all LoopVar.plain && value.all LoopVar.plain && iterable.plain && plain body
  | .switch selector cases _ => selector.plain && plainCases cases
  | .add target _ | .delete target _ => target.plain
  | .return value _ => value.all Expr.plain
  | .when test body timeout _ _ => test.plain && plain body && plainTimeout timeout
  | .next _ | .break _ | .fallthrough _ | .init .. | .null _ => true

def plainList : List Stmt → Bool
  | [] => true
  | s :: rest => plain s && plainList rest

def plainOption : Option Stmt → Bool
  | none => true
  | some s => plain s

def plainTimeout : Option Timeout → Bool
  | none => true
  | some (.mk e body) => e.plain && plainOption body

def plainCases : List Case → Bool
  | [] => true
  | .mk values types body _ :: rest =>
    values.all Expr.plainList && types.all (·.all TypeLabel.plain) && plain body
      && plainCases rest

end

end Stmt

/-- No declared type mentions `error`, and every string fits a key. -/
def Unit.plain (u : Unit) : Bool := u.locals.all LocalDecl.plain && u.body.plain

end Vigil.Doc
