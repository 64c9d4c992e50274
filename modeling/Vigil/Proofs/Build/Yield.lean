import Vigil.Proofs.Build.Order

/-!
# Vigil.Proofs.Build.Yield — what the returns of a loaded unit carry

Every `return` is judged in the order it is written, by the rule that those
before it left. Rules only ever settle: the first value returned fixes the type
of a function that declared none, and a type that is fixed stays. So in a unit
without errors whatever is returned may be stored as the type the unit ends up
with, wherever the `return` stands (`Script.canAssign_of_return`).
-/

namespace Vigil

namespace YieldRule

variable {rule rule' rule'' : YieldRule} {span : Span} {value : Option Expr} {s : Stmt}
  {ss ss' : List Stmt}

/-! ## One return -/

/-- A `return` under `rule` that leaves `rule'`: a type that was settled stays,
and a value may be stored as the type that is settled now. -/
structure Admits (rule : YieldRule) (value : Option Expr) (rule' : YieldRule) : Prop where
  settled : ∀ ty ∈ rule.ty?, ty ∈ rule'.ty?
  fits : ∀ e ∈ value, ∃ ty ∈ rule'.ty?, e.ty.canAssign ty = true

theorem Admits.of_none (rule : YieldRule) : rule.Admits none rule :=
  ⟨fun _ h => h, fun _ h => by cases h⟩

/-- A `return` is an error, or nothing is wrong with it and it is admitted. -/
theorem step_cases (rule : YieldRule) (span : Span) (value : Option Expr) :
    (∃ d, (rule.step span value).2 = some d ∧ d.isError = true) ∨
      (rule.step span value).2 = none ∧ rule.Admits value (rule.step span value).1 := by
  unfold step
  split
  · exact .inl ⟨_, rfl, rfl⟩
  · exact .inr ⟨rfl, .of_none _⟩
  · -- the first value settles the type, its own
    rename_i e
    refine .inr ⟨rfl, fun _ h => ?_, fun e' h => ?_⟩
    · cases h
    · cases h
      exact ⟨e.ty, rfl, e.ty.canAssign_self⟩
  · exact .inr ⟨rfl, .of_none _⟩
  · exact .inr ⟨rfl, .of_none _⟩
  · exact .inl ⟨_, rfl, rfl⟩
  · exact .inl ⟨_, rfl, rfl⟩
  · -- only a hook may do without a value
    rename_i isHook _
    cases isHook with
    | false => exact .inl ⟨_, rfl, rfl⟩
    | true => exact .inr ⟨rfl, .of_none _⟩
  · rename_i ty _ e _
    by_cases hassign : e.ty.canAssign ty = true
    · refine .inr ⟨if_pos hassign, fun _ h => h, fun e' h => ?_⟩
      cases h
      exact ⟨ty, rfl, hassign⟩
    · exact .inl ⟨_, if_neg hassign, rfl⟩

theorem admits_of_step (h : rule.step span value = (rule', none)) : rule.Admits value rule' := by
  have hcases := step_cases rule span value
  rw [h] at hcases
  rcases hcases with ⟨d, hd, -⟩ | ⟨-, hadmits⟩
  · cases hd
  · exact hadmits

/-! ## All returns in order -/

/-- From `rule`, the statements are gone through in order, nothing is wrong with
any `return` among them, and `rule'` is left. -/
inductive Allows : YieldRule → List Stmt → YieldRule → Prop where
  | nil {rule : YieldRule} : Allows rule [] rule
  | skip {rule rule' : YieldRule} {s : Stmt} {ss : List Stmt} :
    s.return? = none → Allows rule ss rule' → Allows rule (s :: ss) rule'
  | judge {rule rule' rule'' : YieldRule} {s : Stmt} {ss : List Stmt} {span : Span}
    {value : Option Expr} : s.return? = some value → rule.step span value = (rule', none) →
      Allows rule' ss rule'' → Allows rule (s :: ss) rule''

namespace Allows

theorem append (h : Allows rule ss rule') (h' : Allows rule' ss' rule'') :
    Allows rule (ss ++ ss') rule'' := by
  induction h with
  | nil => exact h'
  | skip hs _ ih => exact .skip hs (ih h')
  | judge hs hstep _ ih => exact .judge hs hstep (ih h')

/-- A type that was settled stays to the end. -/
theorem settled (h : Allows rule ss rule') : ∀ ty ∈ rule.ty?, ty ∈ rule'.ty? := by
  induction h with
  | nil => exact fun _ h => h
  | skip _ _ ih => exact ih
  | judge _ hstep _ ih => exact fun ty hty => ih ty ((admits_of_step hstep).settled ty hty)

/-- All values may be stored as the type that is settled in the end. -/
theorem fits (h : Allows rule ss rule') {e : Expr} (hmem : s ∈ ss)
    (hs : s.return? = some (some e)) : ∃ ty ∈ rule'.ty?, e.ty.canAssign ty = true := by
  induction h with
  | nil => cases hmem
  | skip hs' _ ih =>
    rcases List.mem_cons.mp hmem with rfl | hmem
    · cases hs'.symm.trans hs
    · exact ih hmem
  | judge hs' hstep hrest ih =>
    rcases List.mem_cons.mp hmem with rfl | hmem
    · cases hs'.symm.trans hs
      obtain ⟨ty, hty, hassign⟩ := (admits_of_step hstep).fits e rfl
      exact ⟨ty, hrest.settled ty hty, hassign⟩
    · exact ih hmem

end Allows

end YieldRule

theorem BuildM.allows_of_declares {s s' : Scope} (h : s.Declares s') (hs : s'.NoErrors) :
    s.NoErrors ∧ YieldRule.Allows s.yieldRule [] s'.yieldRule := by
  rw [h.yieldRule]
  exact ⟨h.grows.noErrors hs, .nil⟩

/-- Without errors, the rule after a construction is the one its returns left. -/
theorem BuildM.allows_follows : Follows False fun s _ ss s' => s'.NoErrors →
    s.NoErrors ∧ YieldRule.Allows s.yieldRule ss s'.yieldRule where
  calm h _ := allows_of_declares h.toDeclares
  append h h' hs := by
    obtain ⟨hmid, hlast⟩ := h' hs
    obtain ⟨hstart, hfirst⟩ := h hmid
    exact ⟨hstart, hfirst.append hlast⟩
  number h hplain _ _ hs := (h hs).imp_right fun hparts => hparts.skip hplain.return?
  place {s s₁ s₂ d ss t} h hpreorder hmade _ _ hs := by
    cases hmade with
    | plain _ _ ht => exact (h hs).imp_right fun hparts => hparts.skip ht.return?
    | switch =>
      obtain ⟨hstart, hparts⟩ := h fun d hd => hs d (Array.mem_append_left _ hd)
      exact ⟨hstart, hparts.skip rfl⟩
    | @«return» _ span _ value =>
      cases hpreorder
      obtain ⟨hstart, hparts⟩ := h fun d hd => hs d (Array.mem_append_left _ hd)
      refine ⟨hstart, hparts.append (?_ : YieldRule.Allows s₁.yieldRule [_] _)⟩
      rcases YieldRule.step_cases s₁.yieldRule span value with ⟨d, hd, herror⟩ | ⟨hnone, -⟩
      · -- what is wrong with it was reported
        have hmem : d ∈ (s₁.yieldRule.step span value).2.toList.toArray := by simp [hd]
        have hok := hs d (Array.mem_append_right _ hmem)
        rw [hok] at herror
        cases herror
      · exact .judge rfl (Prod.ext rfl hnone) .nil

namespace Script

variable {u : Doc.Unit} {firstStmt : StmtId} {s : Script}

/-- The returns of a unit that loads were all allowed, from the rule of its
kind to the one that gives its type. -/
theorem allows_of_load (hload : load u firstStmt = .ok s) : ∃ rule : YieldRule,
    YieldRule.Allows (.ofKind s.kind) s.body.preorder rule ∧ rule.ty? = s.yield := by
  obtain ⟨-, hallows⟩ := BuildM.unitBody_follows BuildM.allows_follows False.elim
    (BuildM.allows_of_declares (BuildM.locals_declare u _)) (noErrors_of_load hload)
  obtain ⟨rfl, -⟩ := load_eq_ok_iff.mp hload
  exact ⟨_, hallows, rfl⟩

/-- Whatever a unit that loads returns may be stored as the type it ends up
with. -/
theorem canAssign_of_return {ty : Ty} {i : StmtInfo} {e : Expr}
    (hload : load u firstStmt = .ok s) (hyield : s.yield = some ty)
    (hmem : Stmt.return i (some e) ∈ s.body.preorder) : e.ty.canAssign ty = true := by
  obtain ⟨rule, hallows, hrule⟩ := allows_of_load hload
  obtain ⟨ty', hty', hassign⟩ := hallows.fits hmem rfl
  cases (hrule.trans hyield).symm.trans hty'
  exact hassign

end Script

end Vigil
