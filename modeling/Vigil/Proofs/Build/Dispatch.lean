import Vigil.Proofs.Stmt.Tree
import Vigil.Proofs.Switch.Labels
import Vigil.Proofs.Typing.Eval

/-!
# Vigil.Proofs.Build.Dispatch — checking the labels of a switch

Checking the arms of a switch leaves their bodies alone, brings in no identifier
and loses no key, whatever is wrong (`Draft.Extends`). A value label is looked up
by its key, and one that passed its checks and has no key all the same would break
an invariant. That never happens when constants fit their type (`Expr.Foldable`),
and then labels that pass are found by their keys (`Dispatch.ofCases_keyed`).

Typed constants are such. When nothing is wrong with typed labels, value labels
stand only under a selector that has keys and type labels bind variables of their
types (`Dispatch.typed_ofCases`).
-/

namespace Vigil

/-! ## Constants -/

namespace Expr

variable {L : Layout} {e selector : Expr}

/-- If a constant of an atomic type, its value is of that type and fits a key. -/
def Foldable (e : Expr) : Prop :=
  e.ty.isAtomic = true → ∀ v, e.fold? = some v → v.Fits e.ty

/-- If a constant and no error, its value fits the selector's type. -/
def FitsUnder (selector e : Expr) : Prop :=
  selector.isError = false → e.isError = false → ∀ v, e.fold? = some v → v.Fits selector.ty

/-- If a constant and no error, it has one of the keys under the selector's type. -/
def KeyedIn (e selector : Expr) (keys : List Key) : Prop :=
  e.isError = false → ∀ v, e.fold? = some v →
    ∃ key ∈ keys, Key.encode? true [selector.ty] [v] = some key

theorem KeyedIn.mono {keys keys' : List Key} (h : e.KeyedIn selector keys) (hkeys : keys ⊆ keys') :
    e.KeyedIn selector keys' := by
  intro herror v hv
  obtain ⟨key, hkey, hencode⟩ := h herror v hv
  exact ⟨key, hkeys hkey, hencode⟩

/-- What is no constant need not fit. -/
theorem foldable_of_fold? (h : e.fold? = none) : e.Foldable := by
  intro _ v hv
  rw [h] at hv
  cases hv

/-- The value of a constant expression has the type of the expression. -/
theorem hasType_of_fold {v : Value} (he : e.Typed L)
    (hv : e.fold? = some v) : Heap.empty.HasType v e.ty := by
  fun_induction fold? e generalizing v with
  | case1 u i =>
    cases hv
    exact he.1
  | case2 id i =>
    have hty : i.ty = id.ty := he.2.symm
    rw [ty, info, hty]
    exact L.const id he.1 v hv
  | case3 => cases hv
  | case4 op e i hop u hu ih =>
    have happly : op.apply .empty u = .ok v := by
      revert hv
      rcases op.apply .empty u with s | u'
      · intro hnone
        cases hnone
      · intro hsome
        cases hsome
        rfl
    exact UnaryOp.hasType_apply (ih he.1 hu) he.1.clean he.2 happly
  | case5 => cases hv
  | case6 => cases hv

theorem Typed.foldable (he : e.Typed L) : e.Foldable :=
  fun hatomic _ hv => (hasType_of_fold he hv).fits hatomic

theorem typed_mem : ∀ {es : List Expr} {e : Expr}, TypedList L es → e ∈ es → e.Typed L
  | _ :: _, _, hes, .head _ => hes.1
  | _ :: _, _, hes, .tail _ he => typed_mem hes.2 he

end Expr

/-- Only `error` and the type itself agree with an atomic one. -/
theorem Ty.eq_of_same_of_isAtomic {a b : Ty} (ha : a.isError = false) (hb : b.isAtomic = true)
    (h : a.same b = true) : a = b := by
  cases b with
  | bool | int | count | double | string | time | interval => cases a <;> simp_all [isError, same]
  | _ => cases hb

/-! ## Labels -/

namespace Labels

variable {L : Layout} {selector : Expr} {ls ls' : Labels}

/-- The identifiers in the labels of an arm. -/
def idents : Labels → List Ident
  | .values es => Expr.identsOf es
  | .types ts => ts.filterMap TypeCase.binding?
  | .default => []

/-- The values among the labels are constants that fit, or not constants at all. -/
def Foldable : Labels → Prop
  | .values es => ∀ e ∈ es, e.Foldable
  | .types _ | .default => True

/-- The value labels of an arm that passed its checks have keys under the selector's
type, and these are among the collected ones. -/
def KeyedUnder (selector : Expr) (keys : List Key) : Labels → Prop
  | .values es => selector.ty.isAtomic = true → (∀ e ∈ es, e.ty.same selector.ty = true) →
    ∀ e ∈ es, e.KeyedIn selector keys
  | .types _ | .default => True

theorem KeyedUnder.mono {keys keys' : List Key} (h : ls.KeyedUnder selector keys)
    (hkeys : keys ⊆ keys') : ls.KeyedUnder selector keys' := by
  cases ls with
  | values es => exact fun hatomic hsame e he => (h hatomic hsame e he).mono hkeys
  | types _ | default => trivial

/-- Labels that fit a switch under the layout: typed expressions, or types
that bind variables of their own. -/
def Typed (L : Layout) : Labels → Prop
  | .values es => Expr.TypedList L es
  | .types ts => ∀ t ∈ ts, t.ty.clean = true ∧ ∀ id ∈ t.binding?, L.Has id t.ty
  | .default => True

theorem Typed.foldable (h : ls.Typed L) : ls.Foldable := by
  cases ls with
  | values es => exact fun e he => (Expr.typed_mem h he).foldable
  | types _ | default => trivial

theorem Typed.of_foldsTo (h : ls.Typed L) (hfolds : ls.FoldsTo ls') :
    ∀ t ∈ ls'.typeCases, t.ty.clean = true ∧ ∀ id ∈ t.binding?, L.Has id t.ty := by
  cases hfolds with
  | types ts => exact h
  | values _ | default => exact fun _ ht => absurd ht List.not_mem_nil

end Labels

namespace Dispatch

namespace Draft

variable {ids : List Ident} {F F' : Prop} {d d' d'' : Draft}

/-- The keys collected so far. -/
def keys (d : Draft) : List Key := d.values.map Prod.fst

/-- The identifiers that dispatch may bind. -/
def bindings (d : Draft) : List Ident := d.types.filterMap TypeArm.binding?

/-- No key was lost and no other identifier came in; under `F` no invariant was
broken. -/
structure Extends (ids : List Ident) (F : Prop) (d d' : Draft) : Prop where
  breach : F → d.breach? = none → d'.breach? = none
  keys : d.keys ⊆ d'.keys
  bindings : d.bindings ⊆ ids → d'.bindings ⊆ ids

namespace Extends

/-- Neither labels nor invariants changed. -/
theorem of_eq (hbreach : d'.breach? = d.breach?) (hvalues : d'.values = d.values)
    (htypes : d'.types = d.types) : d.Extends ids F d' where
  breach _ h := hbreach.trans h
  keys := by
    rw [Draft.keys, Draft.keys, hvalues]
    exact List.Subset.refl _
  bindings h := by rwa [Draft.bindings, htypes]

theorem trans (h : d.Extends ids F d') (h' : d'.Extends ids F d'') : d.Extends ids F d'' where
  breach hF hd := h'.breach hF (h.breach hF hd)
  keys := List.Subset.trans h.keys h'.keys
  bindings hd := h'.bindings (h.bindings hd)

theorem imp (h : d.Extends ids F d') (hF : F' → F) : d.Extends ids F' d' :=
  ⟨fun hF' => h.breach (hF hF'), h.keys, h.bindings⟩

end Extends

theorem mem_keys_of_labelled? {key : Key} {span : Span} (h : d.labelled? key = some span) :
    key ∈ d.keys := by
  obtain ⟨entry, hentry, -⟩ := Option.map_eq_some_iff.mp h
  have hkey : entry.1 = key := by simpa using List.find?_some hentry
  exact List.mem_map.mpr ⟨entry, List.mem_of_find?_eq_some hentry, hkey⟩

variable (selector : Expr) (arm : Nat)

/-- A value label stays as it is or becomes a constant. -/
theorem valueLabel_extends (label : Expr) (d : Draft) :
    d.Extends ids (selector.FitsUnder label) (d.valueLabel selector arm label).2 ∧
      (d.valueLabel selector arm label).1.idents ⊆ label.idents ∧
      (selector.FitsUnder label → selector.isError = false →
        label.KeyedIn selector (d.valueLabel selector arm label).2.keys) := by
  unfold valueLabel Expr.KeyedIn Expr.FitsUnder
  cases herror : label.isError with
  | true => exact ⟨.of_eq rfl rfl rfl, List.Subset.refl _, fun _ _ h => by cases h⟩
  | false =>
  cases hfold : label.fold? with
  | none => exact ⟨.of_eq rfl rfl rfl, List.Subset.refl _, fun _ _ _ v hv => by cases hv⟩
  | some v =>
  cases hselector : selector.isError with
  | true => exact ⟨.of_eq rfl rfl rfl, List.nil_subset _, fun _ h => by cases h⟩
  | false =>
  have hfound : ∀ {key : Key} {keys : List Key}, Key.encode? true [selector.ty] [v] = some key →
      key ∈ keys → ∀ u, some v = some u →
        ∃ k ∈ keys, Key.encode? true [selector.ty] [u] = some k := by
    rintro key keys hkey hmem u ⟨⟩
    exact ⟨key, hmem, hkey⟩
  cases hkey : Key.encode? true [selector.ty] [v] with
  | none =>
    -- what fits has a key
    have hno : ¬ v.Fits selector.ty := fun hfits => by
      obtain ⟨key, hsome⟩ := Key.exists_encode_singleton.mpr hfits
      cases hkey.symm.trans hsome
    simp only [Bool.false_eq_true, if_false, hkey]
    exact ⟨⟨fun hfits => absurd (hfits trivial trivial v rfl) hno, List.Subset.refl _, id⟩,
      List.nil_subset _, fun hfits => absurd (hfits trivial trivial v rfl) hno⟩
  | some key =>
    cases hlabelled : d.labelled? key with
    | some first =>
      simp only [Bool.false_eq_true, if_false, hkey, hlabelled]
      exact ⟨.of_eq rfl rfl rfl, List.nil_subset _,
        fun _ _ _ => hfound hkey (mem_keys_of_labelled? hlabelled)⟩
    | none =>
      simp only [Bool.false_eq_true, if_false, hkey, hlabelled]
      refine ⟨⟨fun _ => id, ?_, id⟩, List.nil_subset _, fun _ _ _ => hfound hkey ?_⟩ <;> simp [keys]

theorem valueLabels_extends : ∀ (es : List Expr) (d : Draft),
    d.Extends ids (∀ e ∈ es, selector.FitsUnder e) (valueLabels selector arm es d).2 ∧
      Expr.identsOf (valueLabels selector arm es d).1 ⊆ Expr.identsOf es ∧
      ((∀ e ∈ es, selector.FitsUnder e) → selector.isError = false →
        ∀ e ∈ es, e.KeyedIn selector (valueLabels selector arm es d).2.keys)
  | [], _ => ⟨.of_eq rfl rfl rfl, List.Subset.refl _, fun _ _ e he => by cases he⟩
  | e :: es, d => by
    obtain ⟨hfirst, hident, hkey⟩ := @valueLabel_extends ids selector arm e d
    obtain ⟨hrest, hidents, hkeys⟩ := valueLabels_extends es (d.valueLabel selector arm e).2
    simp only [List.forall_mem_cons]
    refine ⟨(hfirst.imp And.left).trans (hrest.imp And.right), List.append_subset.mpr ⟨?_, ?_⟩,
      fun hfits hsel => ⟨(hkey hfits.1 hsel).mono hrest.keys, hkeys hfits.2 hsel⟩⟩
    · exact List.Subset.trans hident (List.subset_append_left _ _)
    · exact List.Subset.trans hidents (List.subset_append_right _ _)

theorem typeLabels_extends (ts : List TypeCase) (d : Draft)
    (hts : ts.filterMap TypeCase.binding? ⊆ ids) :
    d.Extends ids F (ts.foldl (typeLabel selector arm) d) := by
  induction ts generalizing d with
  | nil => exact .of_eq rfl rfl rfl
  | cons t ts ih =>
    have hbinding : ∀ t' ∈ t :: ts, ∀ id ∈ t'.binding?, id ∈ ids := fun t' ht' id hid =>
      hts (List.mem_filterMap.mpr ⟨t', ht', hid⟩)
    refine .trans ?_ (ih (d.typeLabel selector arm t) fun id hid => ?_)
    · unfold typeLabel
      split
      · exact .of_eq rfl rfl rfl
      split
      · exact .of_eq rfl rfl rfl
      refine ⟨fun _ => id, List.Subset.refl _, fun hd id hid => ?_⟩
      rw [bindings, List.filterMap_append] at hid
      rcases List.mem_append.mp hid with hid | hid
      · exact hd hid
      · obtain ⟨t', ht', hid⟩ := List.mem_filterMap.mp hid
        cases List.mem_singleton.mp ht'
        exact hbinding t List.mem_cons_self id hid
    · obtain ⟨t', ht', hid⟩ := List.mem_filterMap.mp hid
      exact hbinding t' (List.mem_cons_of_mem t ht') id hid

theorem labels_extends (span : Span) (d : Draft) {ls : Labels} (hids : ls.idents ⊆ ids) :
    d.Extends ids ls.Foldable (labels selector arm span ls d).2 ∧
      (labels selector arm span ls d).1.idents ⊆ ids ∧
      (ls.Foldable → ls.KeyedUnder selector (labels selector arm span ls d).2.keys) := by
  cases ls with
  | values es =>
    dsimp only [labels]
    split
    case isTrue hnot =>
      refine ⟨.of_eq rfl rfl rfl, hids, fun _ hatomic => ?_⟩
      rw [hatomic] at hnot
      simp at hnot
    case isFalse hatomic =>
      split
      case isTrue hclash =>
        refine ⟨.of_eq rfl rfl rfl, hids, fun _ _ hsame => ?_⟩
        obtain ⟨e, he, hne⟩ := List.any_eq_true.mp hclash
        rw [hsame e he] at hne
        cases hne
      case isFalse hsame =>
        have hsame : ∀ e ∈ es, e.ty.same selector.ty = true := by simpa using hsame
        have hatomic : selector.isError = false → selector.ty.isAtomic = true := by
          simpa using hatomic
        have hfits : (∀ e ∈ es, e.Foldable) → ∀ e ∈ es, selector.FitsUnder e := by
          intro hes e he hs herror v hv
          have hty := Ty.eq_of_same_of_isAtomic herror (hatomic hs) (hsame e he)
          exact hty ▸ hes e he (hty ▸ hatomic hs) v hv
        obtain ⟨hextends, hidents, hkeys⟩ := valueLabels_extends selector arm es d
        refine ⟨hextends.imp hfits, List.Subset.trans hidents hids,
          fun hes hsel _ => hkeys (hfits hes) ?_⟩
        rw [Expr.isError]
        cases hty : selector.ty <;> first | rfl | (rw [hty] at hsel; cases hsel)
  | types ts => exact ⟨typeLabels_extends selector arm ts d hids, hids, fun _ => trivial⟩
  | default =>
    dsimp only [labels]
    split <;> exact ⟨.of_eq rfl rfl rfl, hids, fun _ => trivial⟩

theorem cases_extends : ∀ (cs : List Case) (arm : Nat) (d : Draft),
    (∀ c ∈ cs, c.labels.idents ⊆ ids) →
      d.Extends ids (∀ c ∈ cs, c.labels.Foldable) (cases selector arm cs d).2 ∧
      (∀ c ∈ (cases selector arm cs d).1, c.labels.idents ⊆ ids) ∧
      ((∀ c ∈ cs, c.labels.Foldable) →
        ∀ c ∈ cs, c.labels.KeyedUnder selector (cases selector arm cs d).2.keys)
  | [], _, _, _ => ⟨.of_eq rfl rfl rfl, fun _ hc => absurd hc List.not_mem_nil,
      fun _ _ hc => absurd hc List.not_mem_nil⟩
  | .mk ls body span :: cs, arm, d, hids => by
    simp only [List.forall_mem_cons] at hids ⊢
    obtain ⟨hfirst, hident, hkeyed⟩ := labels_extends selector arm span d hids.1
    obtain ⟨hrest, hidents, hkeys⟩ := cases_extends cs (arm + 1) (labels selector arm span ls d).2
      hids.2
    exact ⟨(hfirst.imp And.left).trans (hrest.imp And.right),
      List.forall_mem_cons.mpr ⟨hident, hidents⟩,
      fun hfold => ⟨(hkeyed hfold.1).mono hrest.keys, hkeys hfold.2⟩⟩

end Draft

/-! ## Switches -/

variable {L : Layout} {selector : Expr} {written : List Case} {ids : List Ident}

theorem ofCases_extends (selector : Expr) (hids : ∀ c ∈ written, c.labels.idents ⊆ ids) :
    Draft.empty.Extends ids (∀ c ∈ written, c.labels.Foldable) (ofCases selector written).2 ∧
      (∀ c ∈ (ofCases selector written).1, c.labels.idents ⊆ ids) ∧
      ((∀ c ∈ written, c.labels.Foldable) →
        ∀ c ∈ written, c.labels.KeyedUnder selector (ofCases selector written).2.keys) := by
  have hcases := Draft.cases_extends selector written 0 .empty hids
  unfold ofCases
  dsimp only
  split
  · exact ⟨hcases.1.trans (.of_eq rfl rfl rfl), hcases.2⟩
  · exact hcases

/-- Checking the arms of a switch brings in no identifier. -/
theorem ofCases_kept (selector : Expr) (hids : ∀ c ∈ written, c.labels.idents ⊆ ids) :
    (∀ c ∈ (ofCases selector written).1, c.labels.idents ⊆ ids) ∧
      (ofDraft (ofCases selector written).2).types.filterMap TypeArm.binding? ⊆ ids := by
  obtain ⟨hextends, hidents, -⟩ := ofCases_extends selector hids
  exact ⟨hidents, hextends.bindings (List.nil_subset _)⟩

/-- No label breaks an invariant, and those that pass are found by their keys. -/
theorem ofCases_keyed (selector : Expr) (h : ∀ c ∈ written, c.labels.Foldable) :
    (ofCases selector written).2.breach? = none ∧
      ∀ c ∈ written, c.labels.KeyedUnder selector
        ((ofDraft (ofCases selector written).2).values.map Prod.fst) := by
  have hids : ∀ c ∈ written, c.labels.idents ⊆ written.flatMap (·.labels.idents) :=
    fun c hc _ hid => List.mem_flatMap.mpr ⟨c, hc, hid⟩
  obtain ⟨hextends, -, hkeyed⟩ := ofCases_extends selector hids
  have hkeys : ∀ d : Draft, (ofDraft d).values.map Prod.fst = d.keys := fun d => by
    rw [ofDraft, List.map_map]
    rfl
  rw [hkeys]
  exact ⟨hextends.breach h rfl, hkeyed h⟩

/-- Labels that passed all checks lead somewhere. -/
theorem typed_ofCases (hsel : selector.ty.clean = true) (hwritten : ∀ c ∈ written, c.labels.Typed L)
    (hclean : (ofCases selector written).2.Clean) :
    (ofDraft (ofCases selector written).2).Typed L selector.ty := by
  let s : Switch := ⟨selector, (ofCases selector written).1, ofDraft (ofCases selector written).2⟩
  obtain ⟨hfolds, hs⟩ : List.Forall₂ Case.FoldsTo written s.arms ∧ s.Collected :=
    Switch.MadeOf.collected ⟨rfl, hclean, rfl⟩
  refine ⟨hs.isAtomic (Ty.isError_of_clean hsel), fun t ht => ?_⟩
  have ht : t ∈ typeArms 0 s.arms := hs.types ▸ ht
  obtain ⟨⟨c, k⟩, hc, ht⟩ := List.mem_flatMap.mp ht
  obtain ⟨label, hlabel, rfl⟩ := List.mem_map.mp ht
  obtain ⟨b, hb, hfold⟩ := exists_written hfolds (List.fst_mem_of_mem_zipIdx hc)
  exact (hwritten b hb).of_foldsTo hfold.labels label hlabel

/-- Checking labels leaves the bodies of the arms alone. -/
theorem bodies_ofCases (selector : Expr) (written : List Case) :
    (ofCases selector written).1.map Case.body = written.map Case.body := by
  have hcases : ∀ (cs : List Case) (arm : Nat) (d : Draft),
      (Draft.cases selector arm cs d).1.map Case.body = cs.map Case.body := by
    intro cs
    induction cs with
    | nil => exact fun _ _ => rfl
    | cons c cs ih =>
      intro arm d
      obtain ⟨labels, body, span⟩ := c
      exact congrArg (body :: ·) (ih _ _)
  exact hcases written 0 .empty

theorem preorderCases_ofCases (selector : Expr) (written : List Case) :
    Stmt.preorderCases (ofCases selector written).1 = Stmt.preorderCases written := by
  rw [Stmt.preorderCases_eq, Stmt.preorderCases_eq, bodies_ofCases]

end Dispatch

end Vigil
