import Vigil.Proofs.Doc.Members

/-!
# Vigil.Proofs.Doc.Finite — the doubles of a document

The literals of a unit carry doubles, and only finite ones have a form in a
document. A unit read from a proper tree has no others: a double is written as
such, or as an integer that fits a word, and no word is near the infinities.
-/

namespace Vigil

/-! ## Words as doubles -/

namespace Double

theorem field_ofField {n : Nat} (negative : Bool) (h : n < signWeight) :
    (ofField negative n).field = n := by
  cases negative <;> simp only [ofField, field, signWeight, UInt64.toNat_ofNat'] at h ⊢ <;>
    simp <;> omega

theorem roundEven_le (num den : Nat) : roundEven num den ≤ num / den + 1 := by
  simp only [roundEven]
  split
  · omega
  split
  · omega
  split <;> omega

/-- Without its low bits a magnitude has no more bits than a significand. -/
theorem div_pow_lt (num : Nat) : num / Nat.pow 2 (Nat.log2 num - 52) < Nat.pow 2 53 := by
  have hpos : 0 < Nat.pow 2 (Nat.log2 num - 52) := Nat.two_pow_pos _
  refine (Nat.div_lt_iff_lt_mul hpos).mpr ?_
  calc num < Nat.pow 2 (Nat.log2 num + 1) := Nat.lt_log2_self
    _ ≤ Nat.pow 2 (53 + (Nat.log2 num - 52)) := Nat.pow_le_pow_right (by decide) (by omega)
    _ = Nat.pow 2 53 * Nat.pow 2 (Nat.log2 num - 52) := Nat.pow_add 2 _ _

/-- A whole number of units rounds to an infinity only when it is large. -/
theorem isFinite_nearest (negative : Bool) {num k : Nat} (h : num < Nat.pow 2 k)
    (hk : k ≤ 1140) : (nearest negative num 1).isFinite = true := by
  have hlog : Nat.log2 num ≤ k := by
    by_cases h0 : num = 0
    · simp [h0]
    · exact Nat.le_of_lt ((Nat.log2_lt h0).mpr h)
  have hround := roundEven_le num (Nat.pow 2 (Nat.log2 num - 52))
  have hbits : num / Nat.pow 2 (Nat.log2 num - 52) < 9007199254740992 := div_pow_lt num
  have hfield : (Nat.log2 num - 52) * exponentWeight
      + roundEven num (Nat.pow 2 (Nat.log2 num - 52)) < infiniteField := by
    simp only [exponentWeight, infiniteField]
    omega
  have hsign : infiniteField < signWeight := by decide
  simp only [nearest, Nat.div_one, Nat.one_mul, isFinite, decide_eq_true_eq]
  rw [Nat.min_eq_left (Nat.le_of_lt hfield), field_ofField _ (Nat.lt_trans hfield hsign)]
  exact hfield

theorem isFinite_nearest_mul (negative : Bool) {n k : Nat} (h : n < Nat.pow 2 64)
    (hk : k ≤ 1074) : (nearest negative (n * Nat.pow 2 k) 1).isFinite = true := by
  refine isFinite_nearest negative (k := 64 + k) ?_ (by omega)
  calc n * Nat.pow 2 k < Nat.pow 2 64 * Nat.pow 2 k :=
        Nat.mul_lt_mul_of_pos_right h (Nat.two_pow_pos _)
    _ = Nat.pow 2 (64 + k) := (Nat.pow_add 2 64 k).symm

theorem isFinite_ofInt {i : Int} (h : Word.IsSigned i ∨ Word.IsUnsigned i) :
    (ofInt i).isFinite = true := by
  have hsize : i.natAbs < 2 ^ 64 := by
    simp only [Word.IsSigned, Word.IsUnsigned, Word.minSigned, Word.maxSigned,
      Word.maxUnsigned] at h
    omega
  unfold ofInt unitsPerOne
  exact isFinite_nearest_mul (i < 0) (k := 1074) hsize (Nat.le_refl _)

/-- No infinity and no NaN among them. -/
def AllFinite (ds : List Double) : Prop := ∀ d ∈ ds, d.isFinite

@[simp] theorem allFinite_nil : AllFinite [] := by simp [AllFinite]

@[simp] theorem allFinite_singleton (d : Double) : AllFinite [d] ↔ d.isFinite := by
  simp [AllFinite]

@[simp] theorem allFinite_append (ds es : List Double) :
    AllFinite (ds ++ es) ↔ AllFinite ds ∧ AllFinite es := List.forall_mem_append

@[simp] theorem allFinite_flatMap {α : Type} (as : List α) (f : α → List Double) :
    AllFinite (as.flatMap f) ↔ ∀ a ∈ as, AllFinite (f a) := by
  simp only [AllFinite, List.mem_flatMap]
  constructor
  · intro h a ha d hd
    exact h d ⟨a, ha, hd⟩
  · rintro h d ⟨a, ha, hd⟩
    exact h a ha d hd

end Double

/-! ## Doubles of a unit -/

namespace Doc

open Double (AllFinite)

def Lit.doubles : Lit → List Double
  | .double v | .interval v | .time v => [v]
  | .bool _ | .int _ | .count _ | .str _ => []

mutual

def Expr.doubles : Expr → List Double
  | .const value _ => value.doubles
  | .name .. => []
  | .unary _ operand _ | .size operand _ => doubles operand
  | .binary _ lhs rhs _ | .assign lhs rhs _ => doubles lhs ++ doubles rhs
  | .index target indices _ => doubles target ++ doublesList indices
  | .member elem target _ => doublesList elem ++ doubles target

def Expr.doublesList : List Expr → List Double
  | [] => []
  | e :: es => doubles e ++ doublesList es

end

mutual

def Stmt.doubles : Stmt → List Double
  | .list body _ | .bodyList body _ => doublesList body
  | .expr e _ | .add e _ | .delete e _ => e.doubles
  | .print args _ | .event _ args _ => Expr.doublesList args
  | .cond test thenBody elseBody _ =>
    test.doubles ++ doubles thenBody ++ doublesOption elseBody
  | .while test body _ => test.doubles ++ doubles body
  | .for _ _ iterable body _ => iterable.doubles ++ doubles body
  | .switch e cases _ => e.doubles ++ doublesCases cases
  | .return value _ => Expr.doublesList value.toList
  | .when test body timeout _ _ => test.doubles ++ doubles body ++ doublesTimeout timeout
  | .next _ | .break _ | .fallthrough _ | .init .. | .null _ => []

def Stmt.doublesList : List Stmt → List Double
  | [] => []
  | s :: ss => doubles s ++ doublesList ss

def Stmt.doublesOption : Option Stmt → List Double
  | none => []
  | some s => doubles s

def Stmt.doublesCases : List Case → List Double
  | [] => []
  | .mk values _ body _ :: cs =>
    Expr.doublesList (values.getD []) ++ doubles body ++ doublesCases cs

def Stmt.doublesTimeout : Option Timeout → List Double
  | none => []
  | some (.mk e body) => e.doubles ++ doublesOption body

end

def Case.doubles : Case → List Double
  | .mk values _ body _ => Expr.doublesList (values.getD []) ++ body.doubles

def Timeout.doubles : Timeout → List Double
  | .mk e body => e.doubles ++ Stmt.doublesOption body

/-- The doubles in the literals of a unit. -/
def Unit.doubles (u : Unit) : List Double :=
  (u.locals.flatMap fun d => d.const?.toList.flatMap Lit.doubles) ++ u.body.doubles

/-- All doubles of the unit are finite. -/
def Unit.IsFinite (u : Unit) : Prop := AllFinite u.doubles

theorem Expr.doublesList_eq (es : List Expr) : Expr.doublesList es = es.flatMap Expr.doubles := by
  induction es with
  | nil => rfl
  | cons e es ih => rw [doublesList, ih, List.flatMap_cons]

theorem Stmt.doublesList_eq (ss : List Stmt) : Stmt.doublesList ss = ss.flatMap Stmt.doubles := by
  induction ss with
  | nil => rfl
  | cons s ss ih => rw [doublesList, ih, List.flatMap_cons]

theorem Stmt.doublesOption_eq (o : Option Stmt) :
    Stmt.doublesOption o = o.toList.flatMap Stmt.doubles := by
  cases o <;> simp [doublesOption]

theorem Stmt.doublesCases_eq (cs : List Case) :
    Stmt.doublesCases cs = cs.flatMap Case.doubles := by
  induction cs with
  | nil => rfl
  | cons c cs ih =>
    cases c
    rw [doublesCases, ih, List.flatMap_cons, Case.doubles]

theorem Stmt.doublesTimeout_eq (o : Option Timeout) :
    Stmt.doublesTimeout o = o.toList.flatMap Timeout.doubles := by
  rcases o with _ | ⟨e, body⟩ <;> simp [doublesTimeout, Timeout.doubles]

/-! ## Doubles that are read -/

theorem double?_finite : Json.Ensures (fun d : Double => d.isFinite) Json.double? := by
  intro j d hj h
  cases j with
  | int i =>
    cases h
    exact Double.isFinite_ofInt (by simpa only [Json.IsProper] using hj)
  | float v =>
    cases h
    simpa only [Json.IsProper] using hj
  | _ => cases h

theorem Lit.ofJson?_finite (inside : Bool) :
    Json.Ensures (fun l : Lit => AllFinite l.doubles) (Lit.ofJson? inside) := by
  intro j l hj h
  obtain ⟨⟨tag, members⟩, hform, h⟩ := Option.bind_eq_some_iff.mp h
  have value {d : Double} (hd : Json.required? members "v" Json.double? = some d) :
      d.isFinite := double?_finite.required (hj.of_form? hform) hd
  simp only at h
  split at h <;> simp only [Option.map_eq_some_iff, reduceCtorEq] at h <;>
    obtain ⟨v, hv, rfl⟩ := h <;> simp [doubles]
  · exact value hv
  · exact value hv
  · exact value hv

theorem Expr.ofJson?_finite (depth : Nat) (inside : Bool) :
    Json.Ensures (fun e : Expr => AllFinite e.doubles) (Expr.ofJson? depth inside) := by
  induction depth generalizing inside with
  | zero =>
    intro j e _ h
    cases h
  | succ depth ih =>
    intro j e hj h
    specialize ih true
    simp only [Expr.ofJson?, Option.bind_eq_bind, Option.bind_eq_some_iff] at h
    obtain ⟨⟨tag, members⟩, hform, span, -, h⟩ := h
    have hm := hj.of_form? hform
    split at h <;>
      simp only [Option.bind_eq_some_iff, Option.pure_def, Option.some.injEq, reduceCtorEq] at h
    · obtain ⟨value, hvalue, rfl⟩ := h
      exact (Lit.ofJson?_finite true).required hm hvalue
    · obtain ⟨ident, -, rfl⟩ := h
      simp [doubles]
    · obtain ⟨op, -, operand, hoperand, rfl⟩ := h
      simpa [doubles] using ih.required hm hoperand
    · obtain ⟨op, -, lhs, hlhs, rhs, hrhs, rfl⟩ := h
      simpa [doubles] using ⟨ih.required hm hlhs, ih.required hm hrhs⟩
    · obtain ⟨target, htarget, value, hvalue, rfl⟩ := h
      simpa [doubles] using ⟨ih.required hm htarget, ih.required hm hvalue⟩
    · obtain ⟨target, htarget, indices, hindices, rfl⟩ := h
      simpa [doubles, doublesList_eq] using
        ⟨ih.required hm htarget, ih.listOf.required hm hindices⟩
    · obtain ⟨elem, helem, target, htarget, rfl⟩ := h
      simpa [doubles, doublesList_eq] using
        ⟨ih.listOf.required hm helem, ih.required hm htarget⟩
    · obtain ⟨operand, hoperand, rfl⟩ := h
      simpa [doubles] using ih.required hm hoperand

theorem Expr.part?_finite : Json.Ensures (fun e : Expr => AllFinite e.doubles) Expr.part? :=
  fun _ _ hj h => Expr.ofJson?_finite _ true hj h

section Stmt

variable {read : Json → Option Stmt}
  (hread : Json.Ensures (fun s : Stmt => AllFinite s.doubles) read)

include hread

theorem Case.ofJson?_finite :
    Json.Ensures (fun c : Case => AllFinite c.doubles) (Case.ofJson? read) := by
  intro j c hj h
  simp only [Case.ofJson?, Option.bind_eq_bind, Option.bind_eq_some_iff] at h
  obtain ⟨members, hmembers, values, hvalues, types, -, body, hbody, span, -, h⟩ := h
  cases h
  have hm := hj.of_record? hmembers
  have hlabels := Expr.part?_finite.listOf.optional hm hvalues
  have hexprs : ∀ e ∈ values.getD [], AllFinite e.doubles := by
    cases values with
    | none => simp
    | some es => exact hlabels es rfl
  simpa [doubles, Expr.doublesList_eq] using ⟨hexprs, hread.required hm hbody⟩

theorem Timeout.ofJson?_finite :
    Json.Ensures (fun t : Timeout => AllFinite t.doubles) (Timeout.ofJson? read) := by
  intro j t hj h
  simp only [Timeout.ofJson?, Option.bind_eq_bind, Option.bind_eq_some_iff] at h
  obtain ⟨members, hmembers, e, he, body, hbody, h⟩ := h
  cases h
  have hm := hj.of_record? hmembers
  simpa [doubles, Stmt.doublesOption_eq] using
    ⟨Expr.part?_finite.required hm he, hread.optional hm hbody⟩

end Stmt

theorem Stmt.ofJson?_finite (depth : Nat) (inside : Bool) :
    Json.Ensures (fun s : Stmt => AllFinite s.doubles) (Stmt.ofJson? depth inside) := by
  induction depth generalizing inside with
  | zero =>
    intro j s _ h
    cases h
  | succ depth ih =>
    intro j s hj h
    specialize ih true
    simp only [Stmt.ofJson?, Option.bind_eq_bind, Option.bind_eq_some_iff] at h
    obtain ⟨⟨tag, members⟩, hform, span, -, h⟩ := h
    have hm := hj.of_form? hform
    split at h <;>
      simp only [Option.bind_eq_some_iff, Option.pure_def, Option.some.injEq, reduceCtorEq] at h
    · obtain ⟨body, hbody, rfl⟩ := h
      simpa [doubles, doublesList_eq] using ih.listOf.required hm hbody
    · obtain ⟨body, hbody, rfl⟩ := h
      simpa [doubles, doublesList_eq] using ih.listOf.required hm hbody
    · obtain ⟨e, he, rfl⟩ := h
      simpa [doubles] using Expr.part?_finite.required hm he
    · obtain ⟨args, hargs, rfl⟩ := h
      simpa [doubles, Expr.doublesList_eq] using Expr.part?_finite.listOf.required hm hargs
    · obtain ⟨name, -, args, hargs, rfl⟩ := h
      simpa [doubles, Expr.doublesList_eq] using Expr.part?_finite.listOf.required hm hargs
    · obtain ⟨test, htest, thenBody, hthen, elseBody, helse, rfl⟩ := h
      simpa [doubles, doublesOption_eq, and_assoc] using
        ⟨Expr.part?_finite.required hm htest, ih.required hm hthen, ih.optional hm helse⟩
    · obtain ⟨test, htest, body, hbody, rfl⟩ := h
      simpa [doubles] using ⟨Expr.part?_finite.required hm htest, ih.required hm hbody⟩
    · obtain ⟨vars, -, valueVar, -, iterable, hiterable, body, hbody, rfl⟩ := h
      simpa [doubles] using ⟨Expr.part?_finite.required hm hiterable, ih.required hm hbody⟩
    · obtain ⟨e, he, cases, hcases, rfl⟩ := h
      simpa [doubles, doublesCases_eq] using
        ⟨Expr.part?_finite.required hm he, (Case.ofJson?_finite ih).listOf.required hm hcases⟩
    · obtain ⟨target, htarget, rfl⟩ := h
      simpa [doubles] using Expr.part?_finite.required hm htarget
    · obtain ⟨target, htarget, rfl⟩ := h
      simpa [doubles] using Expr.part?_finite.required hm htarget
    · obtain rfl := h
      simp [doubles]
    · obtain rfl := h
      simp [doubles]
    · obtain rfl := h
      simp [doubles]
    · obtain ⟨value, hvalue, rfl⟩ := h
      simpa [doubles, Expr.doublesList_eq] using Expr.part?_finite.optional hm hvalue
    · obtain ⟨names, -, rfl⟩ := h
      simp [doubles]
    · obtain rfl := h
      simp [doubles]
    · obtain ⟨test, htest, body, hbody, timeout, htimeout, isReturn, -, rfl⟩ := h
      simpa [doubles, doublesTimeout_eq, and_assoc] using
        ⟨Expr.part?_finite.required hm htest, ih.required hm hbody,
          (Timeout.ofJson?_finite ih).optional hm htimeout⟩

theorem LocalDecl.ofJson?_finite :
    Json.Ensures (fun d : LocalDecl => ∀ l ∈ d.const?, AllFinite l.doubles)
      LocalDecl.ofJson? := by
  intro j d hj h
  simp only [LocalDecl.ofJson?, Option.bind_eq_bind, Option.bind_eq_some_iff] at h
  obtain ⟨members, hmembers, name, -, ty, -, const?, hconst, span, -, h⟩ := h
  cases h
  exact (Lit.ofJson?_finite false).optional (hj.of_record? hmembers) hconst

/-- Only finite doubles are read from a document. -/
theorem Unit.ofJson?_finite : Json.Ensures Unit.IsFinite Unit.ofJson? := by
  intro j u hj h
  simp only [Unit.ofJson?, Option.bind_eq_bind, Option.bind_eq_some_iff] at h
  obtain ⟨members, hmembers, name, -, kind, -, file?, -, locals, hlocals, body, hbody, h⟩ := h
  cases h
  have hm := hj.of_record? hmembers
  have hconsts := LocalDecl.ofJson?_finite.listOf.withDefault (by simp) hm hlocals
  have hstmt := (Stmt.ofJson?_finite _ false).required hm hbody
  simpa [IsFinite, doubles] using ⟨hconsts, hstmt⟩

end Doc

end Vigil
