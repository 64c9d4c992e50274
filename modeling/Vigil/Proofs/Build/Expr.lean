import Vigil.Build.Expr
import Vigil.Proofs.Build.Dispatch
import Vigil.Proofs.Build.Gives
import Vigil.Proofs.Build.Plain

/-!
# Vigil.Proofs.Build.Expr — expressions are built typed

The identifiers in an expression are declared ones. Every problem an expression
check finds is an error (`Verdict.Strict`), so an expression that was built without
errors passed the check of each of its nodes and is typed. Errors or not, a constant
of an atomic type has a value of that type, since the constants in scope do
(`Scope.FitKeys`). Strings have to be short for this. `BuildM.expr_gives` says all
three (`Expr.Known`).
-/

namespace Vigil

variable {op : UnaryOp} {span : Span}

/-! ## Checks -/

/-- A check whose only answers are success and an error. -/
def Verdict.Strict {α : Type} (v : Except Diagnostic α) : Prop :=
  ∀ d, v = .error d → d.isError = true

namespace Verdict

variable {α β : Type} {span : Span}

theorem strict_pure {a : α} : Strict (pure a) := fun _ h => by cases h

theorem strict_fail {p : Problem} (hp : p.isError = true) : Strict (fail span p : Except _ α) :=
  fun _ h => by
    cases h
    exact hp

theorem strict_ite {c : Prop} [Decidable c] {x y : Except Diagnostic α} (hx : Strict x)
    (hy : Strict y) : Strict (if c then x else y) := by
  split
  · exact hx
  · exact hy

theorem strict_bind {x : Except Diagnostic α} {k : α → Except Diagnostic β} (hx : Strict x)
    (hk : ∀ a, Strict (k a)) : Strict (x >>= k) := by
  cases x with
  | error d =>
    intro d' h
    cases h
    exact hx d rfl
  | ok a => exact hk a

theorem strict_unary (op : UnaryOp) (operand : Ty) : Strict (unary op operand span) := by
  unfold unary
  split <;> first | exact strict_pure | exact strict_fail rfl

theorem strict_binary (op : BinaryOp) (a b : Ty) : Strict (binary op a b span) := by
  unfold binary
  refine strict_ite strict_pure (strict_ite (strict_ite strict_pure (strict_fail rfl))
    (strict_ite (strict_ite strict_pure (strict_fail rfl)) ?_))
  split
  · exact strict_ite (strict_fail rfl) strict_pure
  · exact strict_fail rfl

theorem strict_assign (target value : Expr) : Strict (assign target value span) := by
  -- the last check is the same for every target that can be assigned to
  have hstore : Strict (if value.ty.canAssign target.ty then pure target.ty
      else fail span (.assignmentClash target.ty value.ty)) :=
    strict_ite strict_pure (strict_fail rfl)
  unfold assign
  dsimp only
  split
  · exact strict_ite (strict_fail rfl) (strict_ite (strict_fail rfl) hstore)
  · exact strict_ite (strict_fail rfl) hstore
  · exact hstore
  · exact strict_fail rfl

theorem strict_components : ∀ (types : List Ty) (index : List Expr),
    Strict (components types index)
  | ty :: types, e :: es => by
    simp only [components]
    exact strict_ite (strict_components types es) (strict_fail rfl)
  | [], _ => by
    simp only [components]
    exact strict_pure
  | _ :: _, [] => by
    simp only [components]
    exact strict_pure

theorem strict_indexList (types : List Ty) (index : List Expr) :
    Strict (indexList types index span) :=
  strict_ite (strict_components types index) (strict_fail rfl)

theorem strict_index (target : Ty) (index : List Expr) :
    Strict (Verdict.index target index span) := by
  unfold Verdict.index
  split
  · exact strict_pure
  · exact strict_bind (strict_indexList _ _) fun _ => strict_pure
  · exact strict_bind (strict_indexList _ _) fun _ => strict_pure
  · split
    · exact strict_ite strict_pure (strict_fail rfl)
    · exact strict_fail rfl
  · exact strict_fail rfl

theorem strict_member (elem : List Expr) (target : Ty) : Strict (member elem target span) := by
  unfold member
  split
  · exact strict_pure
  · exact strict_bind (strict_indexList _ _) fun _ => strict_pure
  · exact strict_bind (strict_indexList _ _) fun _ => strict_pure
  · split
    · exact strict_ite strict_pure (strict_fail rfl)
    · exact strict_fail rfl
  · split
    · exact strict_ite strict_pure (strict_fail rfl)
    · exact strict_fail rfl
  · exact strict_fail rfl

theorem strict_size (operand : Ty) : Strict (size operand span) := by
  unfold size
  split <;> first | exact strict_pure | exact strict_fail rfl

end Verdict

/-! ## Constants -/

/-- Constants have the type of their value and fit a key. -/
def Scope.FitKeys (s : Scope) : Prop := ∀ e ∈ s.names, ∀ v ∈ e.2.const?, v.Fits e.2.ty

/-- A sign in front of a constant. -/
theorem Value.Fits.apply {v v' : Value} {ty ty' : Ty} (hop : op ≠ .not) (h : v.Fits ty)
    (hv : op.apply .empty v = .ok v') (hty : Verdict.unary op ty span = .ok ty') : v'.Fits ty' := by
  have hkind := h.kind
  cases op with
  | not => exact absurd rfl hop
  | negate | positive =>
    cases v with
    | int _ | count _ | double _ | interval _ =>
      cases ty <;> cases hkind
      cases hv
      cases hty
      exact ⟨rfl, rfl, trivial⟩
    | _ => cases hv

theorem Expr.foldable_unary {operand : Expr} {ty : Ty} (hoperand : operand.Foldable)
    (hty : Verdict.unary op operand.ty span = .ok ty ∨ ty = .error) :
    (Expr.unary op operand ⟨ty, span⟩).Foldable := by
  intro hatomic v hv
  have hverdict : Verdict.unary op operand.ty span = .ok ty := by
    refine hty.resolve_right fun h => ?_
    subst h
    cases hatomic
  -- only what has a sign takes one
  have hchecked : operand.ty.isAtomic = true := by
    generalize operand.ty = ty' at hverdict
    cases ty' <;> first | rfl | (cases op <;> cases hverdict <;> cases hatomic)
  cases op with
  | not => cases hv
  | negate | positive =>
    cases hfold : operand.fold? with
    | none =>
      simp only [Expr.fold?, hfold] at hv
      cases hv
    | some u =>
      simp only [Expr.fold?, hfold] at hv
      refine (hoperand hchecked u hfold).apply (by decide) ?_ hverdict
      cases happly : UnaryOp.apply .empty _ u with
      | error stop =>
        rw [happly] at hv
        cases hv
      | ok u' =>
        rw [happly] at hv
        cases hv
        rfl

/-! ## Expressions -/

namespace Expr

/-- What is known of an expression in a scope it was built in. -/
structure Known (d : Doc.Expr) (s : Scope) (e : Expr) : Prop where
  idents : e.idents ⊆ s.idents
  foldable : d.plain = true → s.FitKeys → e.Foldable
  typed : d.plain = true → s.Grants fun L => e.Typed L

/-- What is known of several. -/
structure KnownList (ds : List Doc.Expr) (s : Scope) (es : List Expr) : Prop where
  idents : identsOf es ⊆ s.idents
  foldable : Doc.Expr.plainList ds = true → s.FitKeys → ∀ e ∈ es, e.Foldable
  typed : Doc.Expr.plainList ds = true → s.Grants fun L => TypedList L es

/-- What fails a check of its own is no constant. -/
theorem Known.error {d : Doc.Expr} {s : Scope} {i : ExprInfo} (h : ¬ s.NoErrors) :
    Known d s (.error i) :=
  ⟨List.nil_subset _, fun _ _ => foldable_of_fold? rfl, fun _ hne => absurd hne h⟩

end Expr

namespace BuildM

variable {R : Scope → Scope → Prop} [Scope.Steady R] {G : Prop}

/-- The type a check gives is the one it found, or `error`. -/
theorem checked_gives {v : Verdict} (hv : Verdict.Strict v) :
    Gives R G (checked v) fun s ty =>
      (v = .ok ty ∨ ty = .error) ∧ (s.NoErrors → v = .ok ty) := by
  cases v with
  | ok ty => exact .pure fun _ => ⟨.inl rfl, fun _ => rfl⟩
  | error d =>
    refine .bind (reportAll_gives _) fun _ => .pure fun s h => ⟨.inr rfl, fun hne => ?_⟩
    exact absurd ((hv d rfl).symm.trans (h hne d (List.mem_singleton_self _))) (by decide)

mutual

theorem expr_gives : ∀ e : Doc.Expr, Gives R G (expr e) (Expr.Known e)
  | .const lit span => by
    unfold expr
    split
    case h_1 v hv =>
      refine .pure fun s => ⟨List.nil_subset _, fun hplain _ _ u hu => ?_, fun hplain _ L _ => ?_⟩
      · cases hu
        exact Doc.Lit.fits_of_value hplain hv
      · have hfits := Doc.Lit.fits_of_value hplain hv
        exact ⟨hfits.hasType _, hfits.clean⟩
    case h_2 => exact .bind report_gives fun _ => .pure fun s h => .error (h rfl)
  | .name name span => by
    unfold expr
    refine .bind find?_gives fun found => ?_
    split
    case h_1 id =>
      refine .pure fun s hfound => ?_
      have hname := hfound id rfl
      have hid : id ∈ s.idents := List.mem_map_of_mem hname
      exact ⟨List.cons_subset.mpr ⟨hid, List.nil_subset _⟩, fun _ hfit _ v hv => hfit _ hname v hv,
        fun _ _ L hL => ⟨hL hid, rfl⟩⟩
    case h_2 => exact .bind report_gives fun _ => .pure fun s h _ => .error (h rfl)
  | .unary op operand span => by
    unfold expr
    refine .bind (expr_gives operand) fun _ => .bind (checked_gives (Verdict.strict_unary op _))
      fun _ => .pure fun s hty ho => ⟨ho.idents, fun hplain hfit => ?_, fun hplain hne L hL => ?_⟩
    · exact Expr.foldable_unary (ho.foldable hplain hfit) hty.1
    · exact ⟨ho.typed hplain hne L hL, hty.2 hne⟩
  | .binary op lhs rhs span => by
    unfold expr
    refine .bind (expr_gives lhs) fun _ => .bind (expr_gives rhs) fun _ =>
      .bind (checked_gives (Verdict.strict_binary op _ _)) fun _ => .pure fun s hty hr hl =>
        ⟨List.append_subset.mpr ⟨hl.idents, hr.idents⟩, fun _ _ => Expr.foldable_of_fold? rfl,
          fun hplain hne L hL => ?_⟩
    exact ⟨hl.typed (Bool.and_elim_left hplain) hne L hL,
      hr.typed (Bool.and_elim_right hplain) hne L hL, hty.2 hne⟩
  | .assign target value span => by
    unfold expr
    refine .bind (expr_gives target) fun _ => .bind (expr_gives value) fun _ =>
      .bind (checked_gives (Verdict.strict_assign _ _)) fun _ => .pure fun s hty hv ht =>
        ⟨List.append_subset.mpr ⟨ht.idents, hv.idents⟩, fun _ _ => Expr.foldable_of_fold? rfl,
          fun hplain hne L hL => ?_⟩
    exact ⟨ht.typed (Bool.and_elim_left hplain) hne L hL,
      hv.typed (Bool.and_elim_right hplain) hne L hL, hty.2 hne⟩
  | .index target is span => by
    unfold expr
    refine .bind (expr_gives target) fun _ => .bind (exprs_gives is) fun _ =>
      .bind (checked_gives (Verdict.strict_index _ _)) fun _ => .pure fun s hty hi ht =>
        ⟨List.append_subset.mpr ⟨ht.idents, hi.idents⟩, fun _ _ => Expr.foldable_of_fold? rfl,
          fun hplain hne L hL => ?_⟩
    exact ⟨ht.typed (Bool.and_elim_left hplain) hne L hL,
      hi.typed (Bool.and_elim_right hplain) hne L hL, hty.2 hne⟩
  | .member elem target span => by
    unfold expr
    refine .bind (exprs_gives elem) fun _ => .bind (expr_gives target) fun _ =>
      .bind (checked_gives (Verdict.strict_member _ _)) fun _ => .pure fun s hty ht he =>
        ⟨List.append_subset.mpr ⟨he.idents, ht.idents⟩, fun _ _ => Expr.foldable_of_fold? rfl,
          fun hplain hne L hL => ?_⟩
    exact ⟨he.typed (Bool.and_elim_left hplain) hne L hL,
      ht.typed (Bool.and_elim_right hplain) hne L hL, hty.2 hne⟩
  | .size operand span => by
    unfold expr
    exact .bind (expr_gives operand) fun _ => .bind (checked_gives (Verdict.strict_size _))
      fun _ => .pure fun s hty ho => ⟨ho.idents, fun _ _ => Expr.foldable_of_fold? rfl,
        fun hplain hne L hL => ⟨ho.typed hplain hne L hL, hty.2 hne⟩⟩

theorem exprs_gives : ∀ es : List Doc.Expr, Gives R G (exprs es) (Expr.KnownList es)
  | [] => by
    unfold exprs
    exact .pure fun _ => ⟨List.nil_subset _, fun _ _ _ he => absurd he List.not_mem_nil,
      fun _ _ _ _ => trivial⟩
  | e :: es => by
    unfold exprs
    refine .bind (expr_gives e) fun _ => .bind (exprs_gives es) fun _ => .pure fun s hes he =>
      ⟨List.append_subset.mpr ⟨he.idents, hes.idents⟩, fun hplain hfit => ?_,
        fun hplain hne L hL => ?_⟩ <;> obtain ⟨hhead, htail⟩ := Bool.and_eq_true_iff.mp hplain
    · exact List.forall_mem_cons.mpr ⟨he.foldable hhead hfit, hes.foldable htail hfit⟩
    · exact ⟨he.typed hhead hne L hL, hes.typed htail hne L hL⟩

end

end BuildM

end Vigil
