import Vigil.Proofs.Build.Yield

/-!
# Vigil.Proofs.Build.Inferred — returns without a value

A function that declares its type returns a value everywhere. One that leaves
its type open may return without a value until the first value settles the
type: such a `return` was judged before there was a type to miss. From then on
every `return` carries a value that may be stored as that type. So the returns
of a loaded function, in the order they are written, are a number of bare ones
and then values only (`Script.bare_returns_precede_values`).
-/

namespace Vigil

variable {s : Stmt} {value : Option Expr}

/-- What the returns of a statement carry, in the order they are written. -/
def Stmt.returns (s : Stmt) : List (Option Expr) := s.preorder.filterMap Stmt.return?

theorem Stmt.mem_returns {i : StmtInfo} (h : Stmt.return i value ∈ s.preorder) :
    value ∈ s.returns :=
  List.mem_filterMap.mpr ⟨_, h, rfl⟩

theorem Stmt.exists_of_mem_returns (h : value ∈ s.returns) :
    ∃ i, Stmt.return i value ∈ s.preorder := by
  obtain ⟨t, hmem, ht⟩ := List.mem_filterMap.mp h
  cases t <;> cases ht
  exact ⟨_, hmem⟩

/-- Where the bare returns come before those with a value, all of them carry one
just when the first that is written does. -/
theorem Stmt.returns_valued_iff {bare : Nat} {es : List Expr} {p : Expr → Prop}
    (heq : s.returns = List.replicate bare none ++ es.map some) (hp : ∀ e ∈ es, p e) :
    (∀ i value, Stmt.return i value ∈ s.preorder → ∃ e ∈ value, p e) ↔
      s.returns.head? ≠ some none := by
  constructor
  · -- a bare return that comes first is one that carries nothing
    intro hall hhead
    obtain ⟨i, hmem⟩ := Stmt.exists_of_mem_returns (List.mem_of_mem_head? hhead)
    obtain ⟨e, he, -⟩ := hall i none hmem
    cases he
  · intro hhead i value hmem
    have hzero : bare = 0 := by
      cases bare with
      | zero => rfl
      | succ n => exact absurd (by rw [heq]; rfl) hhead
    have hvalue := Stmt.mem_returns hmem
    rw [heq, hzero, List.replicate_zero, List.nil_append] at hvalue
    obtain ⟨e, he, rfl⟩ := List.mem_map.mp hvalue
    exact ⟨e, rfl, hp e he⟩

namespace YieldRule

variable {rule rule' : YieldRule} {span : Span} {value : Option Expr} {ss : List Stmt} {ty : Ty}

/-- Under a fixed type other than `void` a `return` carries a value that may be
stored as it. -/
theorem step_fixed (hvoid : ty ≠ .void)
    (h : (fixed (some ty) false).step span value = (rule', none)) :
    rule' = .fixed (some ty) false ∧ ∃ e, value = some e ∧ e.ty.canAssign ty = true := by
  have hrule : rule' = .fixed (some ty) false := by
    rw [show rule' = ((fixed (some ty) false).step span value).1 by rw [h]]
    unfold step
    split <;> simp_all
  refine ⟨hrule, ?_⟩
  have hnone : ((fixed (some ty) false).step span value).2 = none := by rw [h]
  cases value with
  | none =>
    unfold step at hnone
    split at hnone <;> simp_all
  | some e =>
    obtain ⟨ty', hty', hassign⟩ := (admits_of_step h).fits e rfl
    rw [hrule] at hty'
    cases hty'
    exact ⟨e, rfl, hassign⟩

/-- A value settles an open type as its own. -/
theorem step_inferring : inferring.step span value =
    (value.elim inferring fun e => .fixed (some e.ty) false, none) := by
  cases value <;> rfl

namespace Allows

/-- From a fixed type on, all returns carry values. -/
theorem of_fixed (hvoid : ty ≠ .void) (h : Allows rule ss rule') :
    rule = .fixed (some ty) false → rule' = .fixed (some ty) false ∧
      ∃ es : List Expr, ss.filterMap Stmt.return? = es.map some ∧
        ∀ e ∈ es, e.ty.canAssign ty = true := by
  induction h with
  | nil =>
    intro hrule
    exact ⟨hrule, [], rfl, by simp⟩
  | skip hs _ ih =>
    intro hrule
    rw [List.filterMap_cons_none hs]
    exact ih hrule
  | judge hs hstep _ ih =>
    intro hrule
    subst hrule
    obtain ⟨hrule, e, rfl, hassign⟩ := step_fixed hvoid hstep
    obtain ⟨hlast, es, hes, hfits⟩ := ih hrule
    refine ⟨hlast, e :: es, ?_, ?_⟩
    · rw [List.filterMap_cons_some hs, hes, List.map_cons]
    · intro e' he'
      rcases List.mem_cons.mp he' with rfl | he'
      · exact hassign
      · exact hfits e' he'

/-- From an open type on, returns are bare up to the value that settles it. -/
theorem of_inferring (hvoid : ty ≠ .void) (h : Allows rule ss rule') :
    rule = .inferring → rule'.ty? = some ty → ∃ (bare : Nat) (first : Expr) (rest : List Expr),
      ss.filterMap Stmt.return? = List.replicate bare none ++ (first :: rest).map some ∧
        first.ty = ty ∧ ∀ e ∈ rest, e.ty.canAssign ty = true := by
  induction h with
  | nil =>
    intro hrule hty
    rw [hrule] at hty
    cases hty
  | skip hs _ ih =>
    intro hrule hty
    rw [List.filterMap_cons_none hs]
    exact ih hrule hty
  | @judge _ _ _ _ _ span value hs hstep hrest ih =>
    intro hrule hty
    subst hrule
    rw [step_inferring] at hstep
    obtain ⟨hmid, -⟩ := Prod.mk.inj hstep
    rw [List.filterMap_cons_some hs]
    cases value with
    | none =>
      obtain ⟨bare, first, rest, heq, hfirst⟩ := ih hmid.symm hty
      exact ⟨bare + 1, first, rest, by rw [heq, List.replicate_succ, List.cons_append], hfirst⟩
    | some first =>
      -- the type that is settled here stays to the end
      have hsettled := hrest.settled first.ty (by rw [← hmid]; rfl)
      rw [hty] at hsettled
      cases hsettled
      obtain ⟨-, rest, hrest, hfits⟩ := of_fixed hvoid hrest hmid.symm
      exact ⟨0, first, rest, by rw [hrest]; rfl, rfl, hfits⟩

end Allows

end YieldRule

namespace Script

variable {u : Doc.Unit} {firstStmt : StmtId} {s : Script} {declared : Option Ty} {ty : Ty}

/-- A function that declares its type has that type, and no bare returns. -/
theorem returns_of_declared {d : Ty} (hload : load u firstStmt = .ok s)
    (hkind : s.kind = .function (some d)) (hyield : s.yield = some ty)
    (hvoid : ty ≠ .void) :
    d = ty ∧ ∃ es : List Expr, s.body.returns = es.map some ∧
      ∀ e ∈ es, e.ty.canAssign ty = true := by
  obtain ⟨rule, hallows, hrule⟩ := allows_of_load hload
  rw [hkind] at hallows
  rw [hyield] at hrule
  -- the type was there from the start
  have hd := hallows.settled d rfl
  rw [hrule] at hd
  cases hd
  exact ⟨rfl, (hallows.of_fixed hvoid rfl).2⟩

/-- A function that leaves its type open has the type of the first value it
returns. -/
theorem returns_of_open (hload : load u firstStmt = .ok s) (hkind : s.kind = .function none)
    (hyield : s.yield = some ty) (hvoid : ty ≠ .void) :
    ∃ (bare : Nat) (es : List Expr), s.body.returns = List.replicate bare none ++ es.map some ∧
      (∀ e ∈ es, e.ty.canAssign ty = true) ∧ es.head?.map Expr.ty = some ty := by
  obtain ⟨rule, hallows, hrule⟩ := allows_of_load hload
  rw [hkind] at hallows
  rw [hyield] at hrule
  obtain ⟨bare, first, rest, heq, hfirst, hrest⟩ := hallows.of_inferring hvoid rfl hrule
  refine ⟨bare, first :: rest, heq, ?_, congrArg some hfirst⟩
  intro e he
  rcases List.mem_cons.mp he with rfl | he
  · rw [hfirst]
    exact ty.canAssign_self
  · exact hrest e he

/-- **Returns of a function.** In a function that loads and yields a type other
than `void`, the returns are a number of bare ones and then values that may all
be stored as that type. With a declared type none is bare; without one, the
first value has the type of the function. So all returns carry such a value
just when the first that is written does. -/
theorem bare_returns_precede_values (hload : load u firstStmt = .ok s)
    (hkind : s.kind = .function declared) (hyield : s.yield = some ty) (hvoid : ty ≠ .void) :
    ∃ (bare : Nat) (es : List Expr),
      s.body.returns = List.replicate bare none ++ es.map some ∧
      (∀ e ∈ es, e.ty.canAssign ty = true) ∧
      (∀ d ∈ declared, d = ty ∧ bare = 0) ∧
      (declared = none → es.head?.map Expr.ty = some ty) ∧
      ((∀ i value, Stmt.return i value ∈ s.body.preorder →
        ∃ e ∈ value, e.ty.canAssign ty = true) ↔ s.body.returns.head? ≠ some none) := by
  cases declared with
  | none =>
    obtain ⟨bare, es, heq, hfits, hhead⟩ := returns_of_open hload hkind hyield hvoid
    exact ⟨bare, es, heq, hfits, by simp, fun _ => hhead, Stmt.returns_valued_iff heq hfits⟩
  | some d =>
    obtain ⟨hd, es, heq, hfits⟩ := returns_of_declared hload hkind hyield hvoid
    refine ⟨0, es, heq, hfits, ?_, by simp, ?_⟩
    · intro d' hd'
      cases hd'
      exact ⟨hd, rfl⟩
    · have hnone : s.body.returns = List.replicate 0 none ++ es.map some := heq
      exact Stmt.returns_valued_iff hnone hfits

/-- A function without a declared type. It may leave early, without a value, and
the value it returns at its end, or from a trigger before that, settles its
type. -/
def leavesEarly : Doc.Unit where
  name := "leaves-early"
  kind := .function none
  locals := []
  body := .list
    [.cond (.const (.bool true)) (.return none) none,
      .when (.const (.bool true)) (.return (some (.const (.count 1)))) none false,
      .return (some (.const (.count 2)))]

/-- It loads and yields a count; the one bare `return` comes before the two
values. -/
theorem bare_returns_precede_values_leavesEarly : ∃ s, load leavesEarly 0 = .ok s ∧
    s.kind = .function none ∧ s.yield = some .count ∧ s.body.returns.length = 3 ∧
    ∃ (bare : Nat) (es : List Expr),
      s.body.returns = List.replicate bare none ++ es.map some ∧
      (∀ e ∈ es, e.ty.canAssign .count = true) ∧ es.head?.map Expr.ty = some .count ∧
      ¬ ∀ i value, Stmt.return i value ∈ s.body.preorder →
        ∃ e ∈ value, e.ty.canAssign .count = true := by
  have hload : load leavesEarly 0 = .ok (build leavesEarly 0) :=
    load_eq_ok_iff.mpr ⟨rfl, by decide +kernel⟩
  have hyield : (build leavesEarly 0).yield = some .count := by decide +kernel
  obtain ⟨bare, es, heq, hfits, -, hopen, hiff⟩ :=
    bare_returns_precede_values hload rfl hyield (by decide)
  exact ⟨_, hload, rfl, hyield, rfl, bare, es, heq, hfits, hopen rfl, fun hall => hiff.mp hall rfl⟩

/-- A function without a declared type that returns twice, with and without a
value. -/
def returnsTwice (first second : Option Doc.Expr) : Doc.Unit where
  name := "returns-twice"
  kind := .function none
  locals := []
  body := .list [.return first, .return second]

/-- The order of the two decides: with the bare `return` first the function
loads, yields a count and has a `return` that carries nothing; the other way
round it is refused. -/
theorem bare_return_in_valued_function :
    (∃ s, load (returnsTwice none (some (.const (.count 1)))) 0 = .ok s ∧
      s.kind = .function none ∧ s.yield = some .count ∧
      ∃ i, Stmt.return i none ∈ s.body.preorder) ∧
    ∀ s, load (returnsTwice (some (.const (.count 1))) none) 0 ≠ .ok s := by
  constructor
  · refine ⟨_, load_eq_ok_iff.mpr ⟨rfl, by decide +kernel⟩, rfl, by decide +kernel, ?_⟩
    exact Stmt.exists_of_mem_returns (.head _)
  · intro s hload
    obtain ⟨rfl, hok⟩ := load_eq_ok_iff.mp hload
    revert hok
    decide +kernel

end Script

end Vigil
