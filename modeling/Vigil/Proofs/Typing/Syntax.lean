import Vigil.Expr.Check
import Vigil.Proofs.Typing.Value
import Vigil.World.Basic

/-!
# Vigil.Proofs.Typing.Syntax — typed expressions and statements

A layout lists the identifiers of a frame: their types are clean, a constant
is a value of its type, and no two of them share a slot. An expression is
typed under a layout when every node passed its check and every name is one of
the layout; a statement is typed when its expressions are and its loop
variables, case bindings and targets fit them. These are the facts building a
unit without errors establishes and running it relies on.

The static type of a typed expression is clean (`Expr.Typed.clean`): it is no
expression that failed construction.
-/

namespace Vigil

variable {L : Layout}

/-- The identifiers of a frame. -/
structure Layout where
  idents : List Ident
  clean : ∀ id ∈ idents, id.ty.clean = true
  const : ∀ id ∈ idents, ∀ v, id.const? = some v → Heap.empty.HasType v id.ty
  apart : ∀ id ∈ idents, ∀ id' ∈ idents, id.slot = id'.slot → id = id'

/-- An identifier of the layout that has the type. -/
def Layout.Has (L : Layout) (id : Ident) (ty : Ty) : Prop := id ∈ L.idents ∧ id.ty = ty

/-! ## Expressions -/

namespace Expr

mutual

/-- Every node passed its check, and every name is one of the layout. -/
def Typed (L : Layout) : Expr → Prop
  | .const v i => Heap.empty.HasType v i.ty ∧ i.ty.clean = true
  | .name id i => L.Has id i.ty
  | .unary op e i => Typed L e ∧ Verdict.unary op e.ty i.span = .ok i.ty
  | .binary op l r i => Typed L l ∧ Typed L r ∧ Verdict.binary op l.ty r.ty i.span = .ok i.ty
  | .assign t v i => Typed L t ∧ Typed L v ∧ Verdict.assign t v i.span = .ok i.ty
  | .index t is i => Typed L t ∧ TypedList L is ∧ Verdict.index t.ty is i.span = .ok i.ty
  | .member es t i => TypedList L es ∧ Typed L t ∧ Verdict.member es t.ty i.span = .ok i.ty
  | .size e i => Typed L e ∧ Verdict.size e.ty i.span = .ok i.ty
  | .error _ => False

def TypedList (L : Layout) : List Expr → Prop
  | [] => True
  | e :: es => Typed L e ∧ TypedList L es

end

end Expr

/-- Types of what operators compute. -/
def Ty.isPlain : Ty → Bool
  | .bool | .count | .int | .double | .time | .interval => true
  | _ => false

theorem Ty.clean_of_isPlain {ty : Ty} (h : ty.isPlain = true) : ty.clean = true := by
  cases ty <;> first | rfl | cases h

namespace Verdict

variable {span : Span} {ty : Ty} {index : List Expr} {target : Ty} {a : Ty} {op : BinaryOp}

theorem bind_ok {α β : Type} {x : Except Diagnostic α} {k : α → Except Diagnostic β} {b : β}
    (h : (x >>= k) = .ok b) : ∃ a, x = .ok a ∧ k a = .ok b := by
  cases x with
  | error d => cases h
  | ok a => exact ⟨a, rfl, h⟩

theorem isPlain_of_unary {op : UnaryOp} (ha : a.clean = true) (h : unary op a span = .ok ty) :
    ty.isPlain = true := by
  unfold unary at h
  split at h <;> first | cases h; done | skip
  · cases ha
  all_goals
    cases h
    rfl

theorem isPlain_of_arithmetic {b : Ty} (h : arithmetic? op a b = some ty) : ty.isPlain = true := by
  unfold arithmetic? at h
  split at h
  · unfold Ty.promote? at h
    split_ifs at h <;> cases h <;> rfl
  · split at h <;> first | cases h; rfl | cases h | skip
    all_goals
      split at h <;> cases h
      rfl

theorem isPlain_of_binary {b : Ty} (ha : a.clean = true) (hb : b.clean = true)
    (h : binary op a b span = .ok ty) : ty.isPlain = true := by
  unfold binary at h
  simp only [Ty.isError_of_clean ha, Ty.isError_of_clean hb, Bool.or_self, Bool.false_eq_true,
    if_false] at h
  split at h
  · split at h <;> cases h
    rfl
  · split at h
    · split at h <;> cases h
      rfl
    · split at h
      · split at h <;> cases h
        rename_i harith _
        exact isPlain_of_arithmetic harith
      · cases h

/-- What an assignment yields, and that the value fits its target. -/
theorem assign_ok {target value : Expr} (h : assign target value span = .ok ty) :
    ty = target.ty ∧ value.ty.canAssign target.ty = true := by
  unfold assign at h
  dsimp only at h
  have hstore : ∀ {v : Verdict}, v = (if value.ty.canAssign target.ty then pure target.ty
      else fail span (.assignmentClash target.ty value.ty)) → v = .ok ty →
      ty = target.ty ∧ value.ty.canAssign target.ty = true := by
    rintro v rfl hv
    split at hv
    · cases hv
      exact ⟨rfl, ‹_›⟩
    · cases hv
  split at h
  · split at h
    · cases h
    · split at h
      · cases h
      · exact hstore rfl h
  · split at h
    · cases h
    · exact hstore rfl h
  · exact hstore rfl h
  · cases h

/-- The components fit the declared types, one for each. -/
abbrev Fits : List Expr → List Ty → Prop := List.Forall₂ fun e ty => e.ty.canAssign ty = true

theorem fits_of_components {u : PUnit} : ∀ {types : List Ty} {index : List Expr},
    types.length = index.length → components types index = .ok u → Fits index types
  | [], [], _, _ => .nil
  | ty :: types, e :: es, hlen, h => by
    simp only [components] at h
    split at h
    · rename_i hassign
      exact .cons hassign (fits_of_components (by simpa using hlen) h)
    · cases h

theorem fits_of_indexList {types : List Ty} {u : PUnit} (h : indexList types index span = .ok u) :
    Fits index types := by
  unfold indexList at h
  split at h
  · exact fits_of_components ‹_› h
  · cases h

/-- What element access yields, by what is accessed. -/
theorem index_ok (ht : target.clean = true) (h : Verdict.index target index span = .ok ty) :
    (∃ types, target = .table types ty ∧ Fits index types) ∨
      (∃ types, target = .set types ∧ ty = .void ∧ Fits index types) ∨
      (target = .vector ty ∧ ∃ i, index = [i]) := by
  unfold Verdict.index at h
  split at h
  · cases ht
  · rename_i types y
    obtain ⟨u, hfits, hy⟩ := bind_ok h
    cases hy
    exact .inl ⟨types, rfl, fits_of_indexList hfits⟩
  · rename_i types
    obtain ⟨u, hfits, hy⟩ := bind_ok h
    cases hy
    exact .inr (.inl ⟨types, rfl, rfl, fits_of_indexList hfits⟩)
  · split at h
    · split at h <;> cases h
      exact .inr (.inr ⟨rfl, _, rfl⟩)
    · cases h
  · cases h

theorem clean_of_index (ht : target.clean = true) (h : Verdict.index target index span = .ok ty) :
    ty.clean = true := by
  obtain ⟨types, rfl, -⟩ | ⟨types, -, rfl, -⟩ | ⟨rfl, -⟩ := index_ok ht h
  · simp only [Ty.clean, Bool.and_eq_true] at ht
    exact ht.2
  · rfl
  · simpa [Ty.clean] using ht

theorem eq_bool_of_member {elem : List Expr} (h : member elem target span = .ok ty) :
    ty = .bool := by
  unfold member at h
  split at h
  · cases h
    rfl
  · obtain ⟨u, -, hy⟩ := bind_ok h
    cases hy
    rfl
  · obtain ⟨u, -, hy⟩ := bind_ok h
    cases hy
    rfl
  all_goals
    try split at h
    all_goals
      first
      | cases h
      | split at h <;> cases h
        rfl

theorem isPlain_of_size {operand : Ty} (ho : operand.clean = true)
    (h : size operand span = .ok ty) : ty.isPlain = true := by
  cases operand <;> cases h <;> first | rfl | cases ho

end Verdict

/-- A typed expression did not fail construction. -/
theorem Expr.Typed.clean {L : Layout} : ∀ {e : Expr}, e.Typed L → e.ty.clean = true
  | .const _ _, h => h.2
  | .name id i, h => by
    have : i.ty = id.ty := h.2.symm
    rw [Expr.ty, Expr.info, this]
    exact L.clean id h.1
  | .unary _ _ _, h => Ty.clean_of_isPlain (Verdict.isPlain_of_unary h.1.clean h.2)
  | .binary _ _ _ _, h =>
    Ty.clean_of_isPlain (Verdict.isPlain_of_binary h.1.clean h.2.1.clean h.2.2)
  | .assign t _ i, h => by
    rw [Expr.ty, Expr.info, (Verdict.assign_ok h.2.2).1]
    exact h.1.clean
  | .index _ _ _, h => Verdict.clean_of_index h.1.clean h.2.2
  | .member _ _ i, h => by
    rw [Expr.ty, Expr.info, Verdict.eq_bool_of_member h.2.2]
    rfl
  | .size _ _, h => Ty.clean_of_isPlain (Verdict.isPlain_of_size h.1.clean h.2)
  | .error _, h => h.elim

theorem Expr.Typed.isError {e : Expr} (h : e.Typed L) : e.isError = false :=
  Ty.isError_of_clean h.clean

/-! ## Statements -/

/-- The variables of a loop fit what it runs over. -/
def Layout.Loop (L : Layout) (vars : List Ident) (valueVar : Option Ident) : Ty → Prop
  | .table index y => List.Forall₂ L.Has vars index ∧ ∀ id ∈ valueVar, L.Has id y
  | .set index => List.Forall₂ L.Has vars index
  | .vector _ => ∃ id, vars = [id] ∧ id ∈ L.idents ∧ id.ty.isIntegral = true
  | .string => ∃ id, vars = [id] ∧ L.Has id .string
  | _ => False

/-- Value labels need a selector that has keys; a type label binds a variable
of its type. -/
structure Dispatch.Typed (L : Layout) (selector : Ty) (d : Dispatch) : Prop where
  values : d.values ≠ [] → selector.isAtomic = true
  types : ∀ t ∈ d.types, t.ty.clean = true ∧ ∀ id ∈ t.binding?, L.Has id t.ty

namespace Stmt

mutual

/-- Every expression is typed, and what a statement binds or changes fits it. -/
def Typed (L : Layout) : Stmt → Prop
  | .list _ body | .bodyList _ body => TypedList L body
  | .expr _ e => e.Typed L
  | .print _ args | .event _ _ args => Expr.TypedList L args
  | .cond _ test thenBody elseBody => test.Typed L ∧ Typed L thenBody ∧ Typed L elseBody
  | .while _ test body => test.Typed L ∧ Typed L body
  | .for _ vars valueVar target body =>
    target.Typed L ∧ L.Loop vars valueVar target.ty ∧ Typed L body
  | .switch _ selector cases dispatch =>
    selector.Typed L ∧ dispatch.Typed L selector.ty ∧ TypedCases L cases
  | .add _ target => target.Typed L ∧ target.canAdd = true
  | .delete _ target => target.Typed L
  | .return _ (some e) => e.Typed L
  | .return _ none => True
  | .init _ idents => ∀ id ∈ idents, id ∈ L.idents
  | .when _ test body timeout timeoutBody _ =>
    test.Typed L ∧ Typed L body ∧ (∀ e ∈ timeout, e.Typed L) ∧ TypedOption L timeoutBody
  | .next _ | .break _ | .fallthrough _ | .null _ => True

def TypedList (L : Layout) : List Stmt → Prop
  | [] => True
  | s :: rest => Typed L s ∧ TypedList L rest

def TypedCases (L : Layout) : List Case → Prop
  | [] => True
  | .mk _ body _ :: rest => Typed L body ∧ TypedCases L rest

def TypedOption (L : Layout) : Option Stmt → Prop
  | none => True
  | some s => Typed L s

end

end Stmt

/-- What a trigger holds is typed under the layout of its frame. -/
structure Captured.Typed (L : Layout) (c : Captured) : Prop where
  cond : c.cond.Typed L
  body : c.body.Typed L
  timeoutBody : Stmt.TypedOption L c.timeoutBody

theorem Captured.Typed.bodyFor {c : Captured} {state : TriggerState} {s : Stmt} (hc : c.Typed L)
    (hs : c.bodyFor state = some s) : s.Typed L := by
  cases state with
  | fired =>
    cases hs
    exact hc.body
  | timedOut =>
    have hbody := hc.timeoutBody
    rw [show c.timeoutBody = some s from hs] at hbody
    simpa [Stmt.TypedOption] using hbody
  | pending => cases hs
  | cancelled => cases hs

end Vigil
