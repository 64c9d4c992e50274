import Vigil.Proofs.Build.Expr

/-!
# Vigil.Proofs.Build.Quiet — what goes on inside a statement

Loop variables, labels and declarations, and what is known of them where they were
built. The identifiers in them are declared ones. A loop variable gets the type of
what it runs over, whether it is a new variable or one used again (`loopVar_gives`),
so the variables of a loop fit its target, and are as many as the target asks for
(`loopVars_gives`, `valueVar_gives`).
-/

namespace Vigil

/-- There are as many loop variables as the type of the target asks for. -/
def Ty.AsksFor : Ty → List Ident → Prop
  | .table types _, vars | .set types, vars => vars.length = types.length
  | .vector _, vars | .string, vars => vars.length = 1
  | _, _ => True

namespace BuildM

open Scope (Steady Sometime)

variable {R : Scope → Scope → Prop} [Steady R] {G : Prop} {var : Doc.LoopVar}
  {vars : List Doc.LoopVar} {target : Expr} {span : Span}

/-! ## Loop variables -/

theorem declaredType?_gives : Gives R G (declaredType? var) fun s ty =>
    var.plain = true → s.Grants fun _ => ∀ t ∈ ty, t.clean = true := by
  unfold declaredType?
  split
  case h_1 ty hty =>
    refine .pure fun s hplain _ _ _ t ht => ?_
    cases ht
    simpa [Doc.LoopVar.plain, hty] using hplain
  case h_2 =>
    refine .bind find?_gives fun found => .pure fun s hfound _ _ L hL t ht => ?_
    obtain ⟨id, hid, rfl⟩ := Option.map_eq_some_iff.mp ht
    exact L.clean id (hL (List.mem_map_of_mem (hfound id hid)))

theorem clean_of_declared {ty : Option Ty} (hplain : var.plain = true) (h : Sometime fun s =>
    var.plain = true → s.Grants fun _ => ∀ t ∈ ty, t.clean = true) : ∀ t ∈ ty, t.clean = true :=
  let ⟨_, hclean⟩ := (h.imp fun _ hs => hs hplain).grants
  hclean

/-- A loop variable has the type of what it runs over. -/
theorem loopVar_gives {inferred : Ty} :
    Gives R (var.plain = true ∧ inferred.clean = true) (loopVar var inferred) fun s id =>
      id ∈ s.idents ∧ (var.plain = true → inferred.clean = true →
        s.Grants fun _ => id.ty = inferred) := by
  unfold loopVar
  refine .bind find?_gives fun existing => ?_
  split
  · exact (Gives.failed rfl (declare_gives.guard False.elim)).mono fun s id h _ =>
      ⟨h.2.1, fun _ _ hne => absurd hne h.1⟩
  refine .relied declaredType?_gives fun ty => ?_
  cases ty with
  | none => exact (declare_gives.guard fun h => h.1.2).mono fun s id h _ _ =>
      ⟨h.1, fun _ _ _ _ _ => h.2⟩
  | some ty =>
    refine .bind reportIf_gives fun _ => ?_
    -- without `error` in them, types that agree are equal
    have hty : inferred.clean = true → (∀ t ∈ some ty, t.clean = true) →
        (!ty.same inferred) = false → ty = inferred := fun hinf hclean hsame =>
      (Ty.same_iff_eq (hclean ty rfl) hinf).mp (by simpa using hsame)
    cases existing with
    | none =>
      refine (declare_gives.guard fun h => clean_of_declared h.1.1 h.2 ty rfl).mono
        fun s id h hsame hclean _ => ⟨h.1, fun hplain hinf hne L hL => ?_⟩
      exact h.2.trans (hty hinf (hclean hplain hne L hL) (hsame rfl hne))
    | some id =>
      dsimp only
      split
      · rename_i hused
        refine .pure fun s hsame hclean hfound => ?_
        have hid : id ∈ s.idents := List.mem_map_of_mem (hfound id rfl)
        refine ⟨hid, fun hplain hinf hne L hL => ?_⟩
        have hclean := hclean hplain hne L hL
        exact ((Ty.same_iff_eq (L.clean id (hL hid)) (hclean ty rfl)).mp hused).trans
          (hty hinf hclean (hsame rfl hne))
      · -- a new variable shadows one of another type
        refine (declare_gives.guard fun h => clean_of_declared h.1.1 h.2 ty rfl).mono
          fun s id h hsame hclean _ => ⟨h.1, fun hplain hinf hne L hL => ?_⟩
        exact h.2.trans (hty hinf (hclean hplain hne L hL) (hsame rfl hne))

theorem tableVars_gives : ∀ (vars : List Doc.LoopVar) (types : List Ty),
    types.length = vars.length →
      Gives R (vars.all Doc.LoopVar.plain = true ∧ Ty.cleanList types = true) (tableVars vars types)
        fun s ids => ids ⊆ s.idents ∧ ids.length = types.length ∧
          (vars.all Doc.LoopVar.plain = true → Ty.cleanList types = true →
            s.Grants fun L => List.Forall₂ L.Has ids types)
  | [], [], _ => .pure fun _ => ⟨List.nil_subset _, rfl, fun _ _ _ _ _ => .nil⟩
  | var :: vars, ty :: types, hlength => by
    have hparts : (var :: vars).all Doc.LoopVar.plain = true → Ty.cleanList (ty :: types) = true →
        (var.plain = true ∧ ty.clean = true) ∧
          vars.all Doc.LoopVar.plain = true ∧ Ty.cleanList types = true := by
      simp only [List.all_cons, Ty.cleanList, Bool.and_eq_true]
      exact fun h h' => ⟨⟨h.1, h'.1⟩, h.2, h'.2⟩
    unfold tableVars
    refine .bind (loopVar_gives.guard fun h => (hparts h.1 h.2).1) fun id =>
      .bind ((tableVars_gives vars types (Nat.succ.inj hlength)).guard fun h => (hparts h.1 h.2).2)
        fun ids => .pure fun s hids hid => ⟨List.cons_subset.mpr ⟨hid.1, hids.1⟩,
          congrArg Nat.succ hids.2.1, fun hplain hclean hne L hL => ?_⟩
    obtain ⟨hhead, htail⟩ := hparts hplain hclean
    exact .cons ⟨hL hid.1, hid.2 hhead.1 hhead.2 hne L hL⟩ (hids.2.2 htail.1 htail.2 hne L hL)

theorem errorVars_gives : ∀ vars : List Doc.LoopVar,
    Gives R False (errorVars vars) fun s ids => ids ⊆ s.idents
  | [] => .pure fun _ => List.nil_subset _
  | _ :: vars => .bind (declare_gives.guard False.elim) fun _ => .bind (errorVars_gives vars)
    fun _ => .pure fun _ hids hid => List.cons_subset.mpr ⟨hid.1, hids⟩

/-- Variables that fit the target are declared ones, as many as it asks for; that
they do not fit was reported, unless the target itself is wrong. -/
structure HeadOf (target : Expr) (vars : List Doc.LoopVar) (s : Scope)
    (r : Option (List Ident)) : Prop where
  idents : ∀ ids ∈ r, ids ⊆ s.idents
  asks : s.NoErrors → ∀ ids, (∀ ids' ∈ r, ids = ids') → target.ty.AsksFor ids
  loop : target.ty.clean = true → vars.all Doc.LoopVar.plain = true →
    s.Grants fun L => ∃ ids, r = some ids ∧ L.Loop ids none target.ty

theorem headOf_some {s : Scope} {ids : List Ident} (hids : ids ⊆ s.idents)
    (hasks : target.ty.AsksFor ids) (hloop : target.ty.clean = true →
      vars.all Doc.LoopVar.plain = true → s.Grants fun L => L.Loop ids none target.ty) :
    HeadOf target vars s (some ids) where
  idents _ h := Option.some.inj h ▸ hids
  asks _ _ h := h ids rfl ▸ hasks
  loop hclean hplain hne L hL := ⟨ids, rfl, hloop hclean hplain hne L hL⟩

theorem fittingVars?_gives : Gives R (target.ty.clean = true ∧ vars.all Doc.LoopVar.plain = true)
    (fittingVars? target vars) (HeadOf target vars) := by
  have hnone : ∀ {G : Prop} {p : Problem}, p.isError = true →
      Gives R G (do report target.span p; pure none) (HeadOf target vars) := fun hp =>
    (Gives.failed hp (.pure (P := fun _ r => r = none) fun _ => rfl)).mono fun s r h =>
      ⟨fun _ hids => (by cases h.2.symm.trans hids), fun hne => absurd hne h.1,
        fun _ _ hne => absurd hne h.1⟩
  have htable : ∀ types : List Ty, (∀ ids, ids.length = types.length → target.ty.AsksFor ids) →
      (target.ty.clean = true → Ty.cleanList types = true) →
      (∀ L ids, List.Forall₂ (Layout.Has L) ids types → L.Loop ids none target.ty) →
      Gives R (target.ty.clean = true ∧ vars.all Doc.LoopVar.plain = true)
        (if types.length = vars.length then do
          let ids ← tableVars vars types
          pure (some ids)
        else do
          report target.span .loopIndexCount
          pure none) (HeadOf target vars) := by
    intro types hasks hclean hloop
    split
    · rename_i hlength
      exact .bind ((tableVars_gives vars types hlength).guard fun h => ⟨h.2, hclean h.1⟩)
        fun ids => .pure fun s hids => headOf_some hids.1 (hasks ids hids.2.1)
          fun htarget hplain hne L hL => hloop L ids (hids.2.2 hplain (hclean htarget) hne L hL)
    · exact hnone rfl
  unfold fittingVars?
  split
  · rename_i hty
    refine .pure fun s => ⟨fun _ h => (by cases h), fun _ ids _ => ?_, fun hclean => ?_⟩
    · rw [hty]
      trivial
    · rw [hty] at hclean
      cases hclean
  · rename_i types y hty
    refine htable types (fun ids h => ?_) (fun h => ?_) fun L ids h => ?_
    · rw [hty]
      exact h
    · rw [hty, Ty.clean, Bool.and_eq_true] at h
      exact h.1
    · rw [hty]
      exact ⟨h, fun _ h => by cases h⟩
  · rename_i types hty
    refine htable types (fun ids h => ?_) (fun h => ?_) fun L ids h => ?_
    · rw [hty]
      exact h
    · rwa [hty, Ty.clean] at h
    · rw [hty]
      exact h
  · rename_i elem hty
    split
    · rename_i var
      refine .relied declaredType?_gives fun ty => ?_
      dsimp only
      have hclean : (∀ t ∈ ty, t.clean = true) → (ty.getD .count).clean = true := by
        intro h
        cases ty with
        | none => rfl
        | some t => exact h t rfl
      split
      · rename_i hint
        refine .bind (loopVar_gives.guard fun ⟨⟨_, hvars⟩, h⟩ => ?_) fun id => .pure
          fun s hid hdeclared => headOf_some (List.cons_subset.mpr ⟨hid.1, List.nil_subset _⟩) ?_
            fun _ hvars hne L hL => ?_
        · have hplain : var.plain = true := by simpa using hvars
          exact ⟨hplain, hclean (clean_of_declared hplain h)⟩
        · rw [hty]
          rfl
        · have hplain : var.plain = true := by simpa using hvars
          have hclean := hclean (hdeclared hplain hne L hL)
          rw [hty]
          refine ⟨id, rfl, hL hid.1, ?_⟩
          -- the declared type is not `error`, so it is integral
          rw [hid.2 hplain hclean hne L hL]
          simpa [Ty.isError_of_clean hclean] using hint
      · exact (hnone rfl).mono fun _ _ h _ => h
    · exact hnone rfl
  · rename_i hty
    split
    · rename_i var
      refine .andThen declaredType?_gives fun ty => ?_
      dsimp only
      split
      · refine .bind (loopVar_gives.guard fun h => ⟨by simpa using h.2, rfl⟩) fun id => .pure
          fun s hid => headOf_some (List.cons_subset.mpr ⟨hid.1, List.nil_subset _⟩) ?_
            fun _ hvars hne L hL => ?_
        · rw [hty]
          rfl
        · rw [hty]
          exact ⟨id, rfl, hL hid.1, hid.2 (by simpa using hvars) rfl hne L hL⟩
      · exact hnone rfl
    · exact hnone rfl
  · exact hnone rfl

theorem loopVars_gives : Gives R (target.ty.clean = true ∧ vars.all Doc.LoopVar.plain = true)
    (loopVars target vars) fun s ids => ids ⊆ s.idents ∧ (s.NoErrors → target.ty.AsksFor ids) ∧
      (target.ty.clean = true → vars.all Doc.LoopVar.plain = true →
        s.Grants fun L => L.Loop ids none target.ty) := by
  unfold loopVars
  refine .relied fittingVars?_gives fun r => ?_
  cases r with
  | some ids =>
    refine .pure fun s h => ⟨h.idents ids rfl, fun hne => h.asks hne ids fun _ => Option.some.inj,
      fun hclean hplain hne L hL => ?_⟩
    obtain ⟨_, ⟨⟩, hloop⟩ := h.loop hclean hplain hne L hL
    exact hloop
  | none =>
    refine ((errorVars_gives vars).guard fun h => ?_).mono fun s ids hids h =>
      ⟨hids, fun hne => h.asks hne ids fun _ h => (by cases h), fun hclean hplain hne L hL => ?_⟩
    · obtain ⟨_, _, ⟨⟩, -⟩ := (h.2.imp fun _ hs => hs.loop h.1.1 h.1.2).grants
    · obtain ⟨_, ⟨⟩, -⟩ := h.loop hclean hplain hne L hL

/-- A value variable goes with the loop variables of its target. -/
theorem valueVar_gives :
    Gives R (target.ty.clean = true ∧ var.plain = true) (valueVar target var) fun s id =>
      id ∈ s.idents ∧ (target.ty.clean = true → var.plain = true → s.Grants fun L =>
        ∀ vs, L.Loop vs none target.ty → L.Loop vs (some id) target.ty) := by
  unfold valueVar
  split
  · rename_i types y hty
    have hclean : target.ty.clean = true → y.clean = true := by
      rw [hty, Ty.clean, Bool.and_eq_true]
      exact And.right
    refine (loopVar_gives.guard fun h => ⟨h.2, hclean h.1⟩).mono fun s id hid =>
      ⟨hid.1, fun htarget hplain hne L hL vs hvs => ?_⟩
    rw [hty] at hvs ⊢
    refine ⟨hvs.1, fun id' h => ?_⟩
    cases h
    exact ⟨hL hid.1, hid.2 hplain (hclean htarget) hne L hL⟩
  · rename_i hty
    have hno : target.ty.clean ≠ true := by simp [hty, Ty.clean]
    exact (declare_gives.guard fun h => absurd h.1 hno).mono fun _ _ h =>
      ⟨h.1, fun hclean => absurd hclean hno⟩
  · exact (Gives.failed rfl (declare_gives.guard False.elim)).mono fun s id h =>
      ⟨h.2.1, fun _ _ hne => absurd hne h.1⟩

/-! ## Labels and lists of names -/

theorem initIdents_gives : ∀ names : List String,
    Gives R G (initIdents span names) fun s ids => ids ⊆ s.idents
  | [] => .pure fun _ => List.nil_subset _
  | name :: rest => by
    unfold initIdents
    refine .bind find?_gives fun found => ?_
    have hrest : Gives R G (initIdents span rest) fun s ids =>
        (∀ id ∈ found, (name, id) ∈ s.names) → ids ⊆ s.idents :=
      (initIdents_gives rest).mono fun _ _ h _ => h
    split
    · split
      · exact .bind (initIdents_gives rest) fun _ => .pure fun _ hids hid =>
          List.cons_subset.mpr ⟨List.mem_map_of_mem (hid _ rfl), hids⟩
      · exact .andThen report_gives fun _ => hrest
    · exact .andThen report_gives fun _ => hrest

theorem typeCases_gives : ∀ labels : List Doc.TypeLabel,
    Gives R (labels.all Doc.TypeLabel.plain = true) (typeCases labels) fun s ts =>
      ts.filterMap TypeCase.binding? ⊆ s.idents ∧
        (labels.all Doc.TypeLabel.plain = true → s.Grants fun L => Labels.Typed L (.types ts))
  | [] => .pure fun _ => ⟨List.nil_subset _, fun _ _ _ _ _ h => by cases h⟩
  | l :: rest => by
    have hplain : (l :: rest).all Doc.TypeLabel.plain = true →
        l.ty.clean = true ∧ rest.all Doc.TypeLabel.plain = true := by
      simp [Doc.TypeLabel.plain]
    unfold typeCases
    refine .bind (.mapM fun _ _ => declare_gives.guard fun h => (hplain h).1) fun binding =>
      .bind ((typeCases_gives rest).guard fun h => (hplain h).2) fun ts => .pure
        fun s hts hbinding => ⟨fun id hid => ?_, fun h hne L hL t ht => ?_⟩
    · obtain ⟨t, ht, hid⟩ := List.mem_filterMap.mp hid
      rcases List.mem_cons.mp ht with rfl | ht
      · obtain ⟨_, -, hid, -⟩ := hbinding id hid
        exact hid
      · exact hts.1 (List.mem_filterMap.mpr ⟨t, ht, hid⟩)
    · rcases List.mem_cons.mp ht with rfl | ht
      · refine ⟨(hplain h).1, fun id hid => ?_⟩
        obtain ⟨_, -, hid, hty⟩ := hbinding id hid
        exact ⟨hL hid, hty⟩
      · exact hts.2 (hplain h).2 hne L hL t ht

end BuildM

/-- What is known of the labels of an arm in a scope they were built in. -/
structure Labels.Known (values : Option (List Doc.Expr)) (types : Option (List Doc.TypeLabel))
    (s : Scope) (ls : Labels) : Prop where
  idents : ls.idents ⊆ s.idents
  foldable : values.all Doc.Expr.plainList = true → s.FitKeys → ls.Foldable
  typed : values.all Doc.Expr.plainList = true → types.all (·.all Doc.TypeLabel.plain) = true →
    s.Grants fun L => ls.Typed L

namespace BuildM

open Scope (Steady Declares)

variable {R : Scope → Scope → Prop} [Steady R] {span : Span}

theorem caseLabels_gives {values : Option (List Doc.Expr)} {types : Option (List Doc.TypeLabel)} :
    Gives R (types.all (·.all Doc.TypeLabel.plain) = true) (caseLabels values types span)
      (Labels.Known values types) := by
  unfold caseLabels
  split
  · exact .andThen reportIf_gives fun _ => .bind (exprs_gives _) fun _ => .pure fun _ hes =>
      ⟨hes.idents, hes.foldable, fun hplain _ => hes.typed hplain⟩
  · exact .bind ((typeCases_gives _).guard fun h => h) fun _ => .pure fun _ hts =>
      ⟨hts.1, fun _ _ => trivial, fun _ => hts.2⟩
  · exact .pure fun _ => ⟨List.nil_subset _, fun _ _ => trivial, fun _ _ _ _ _ => trivial⟩

end BuildM

/-! ## Declarations -/

namespace Scope

/-- Constants that are declared fit a key under `F`. -/
structure Fits (F : Prop) (s s' : Scope) : Prop extends s.Declares s' where
  consts : F → s.FitKeys → s'.FitKeys

theorem FitKeys.vars {s s' : Scope} (h : s.FitKeys)
    (hs : ∀ e ∈ s'.names, e ∈ s.names ∨ e.2.const? = none) : s'.FitKeys := by
  intro e he v hv
  rcases hs e he with hold | hvar
  · exact h e hold v hv
  · rw [hvar] at hv
    cases hv

instance {F : Prop} : Steady (Fits F) where
  of_quiet h := ⟨h.toDeclares, fun _ hs => hs.vars h.vars⟩
  trans h h' := ⟨Steady.trans h.toDeclares h'.toDeclares,
    fun hF hs => h'.consts hF (h.consts hF hs)⟩
  grows h := h.grows

end Scope

namespace BuildM

open Scope (Fits)

variable {F : Prop}

theorem declareConst_gives {name : String} {v : Value} (hF : F → v.Fits v.atomTy) :
    Gives (Fits F) (v.Fits v.atomTy) (declareConst name v) fun _ _ => True := by
  refine ⟨fun s => ⟨declareAs_declares name v.atomTy (some v) s, fun h hs => ?_⟩,
    fun hfits => declareAs_keeps hfits.clean fun u hu => ?_, fun _ _ _ => trivial⟩
  · rintro e (_ | ⟨_, he⟩) u hu
    · cases hu
      exact hF h
    · exact hs e he u hu
  · cases hu
    exact hfits.hasType _

theorem localDecl_gives (d : Doc.LocalDecl) (hF : F → d.const?.all Doc.Lit.plain = true) :
    Gives (Fits F) (d.plain = true) (localDecl d) fun s id => id.toList ⊆ s.idents := by
  have hplain : d.plain = true → d.ty.clean = true ∧ d.const?.all Doc.Lit.plain = true :=
    Bool.and_eq_true_iff.mp
  have hfailed : ∀ {p : Problem}, p.isError = true → Gives (Fits F) (d.plain = true) (do
      report d.span p
      let _ ← declare d.name .error
      pure (none : Option Ident)) fun s id => id.toList ⊆ s.idents := fun hp =>
    (Gives.failed hp (.andThen (declare_gives.guard False.elim) fun _ =>
      .pure (P := fun s (id : Option Ident) => id.toList ⊆ s.idents)
        fun _ => List.nil_subset _)).mono fun _ _ h => h.2
  unfold localDecl
  refine .andThen find?_gives fun found => ?_
  split
  · exact .andThen report_gives fun _ => .pure fun _ => List.nil_subset _
  · split
    · refine .bind (declare_gives.guard fun h => (hplain h).1) fun id => .pure fun s hid => ?_
      split
      · exact List.cons_subset.mpr ⟨hid.1, List.nil_subset _⟩
      · exact List.nil_subset _
    · rename_i lit hlit
      rw [hlit] at hplain hF
      split
      · exact hfailed rfl
      · rename_i v hv
        split
        · have hfits : lit.plain = true → (v.coerce d.ty).Fits (v.coerce d.ty).atomTy :=
            fun h => Doc.Lit.fits_of_coerce d.ty h hv
          exact .andThen ((declareConst_gives fun h => hfits (hF h)).guard fun h =>
            hfits (hplain h).2) fun _ => .pure fun _ => List.nil_subset _
        · exact hfailed rfl

theorem localDecls_gives : ∀ ds : List Doc.LocalDecl,
    (F → (ds.all fun d => d.const?.all Doc.Lit.plain) = true) →
      Gives (Fits F) (ds.all Doc.LocalDecl.plain = true) (localDecls ds) fun s ids =>
        ids ⊆ s.idents
  | [], _ => .pure fun _ => List.nil_subset _
  | d :: ds, hF => by
    simp only [List.all_cons, Bool.and_eq_true] at hF ⊢
    exact .bind ((localDecl_gives d fun h => (hF h).1).guard And.left) fun _ =>
      .bind ((localDecls_gives ds fun h => (hF h).2).guard And.right) fun _ =>
        .pure fun _ hids hid => List.append_subset.mpr ⟨hid, hids⟩

end BuildM

end Vigil
