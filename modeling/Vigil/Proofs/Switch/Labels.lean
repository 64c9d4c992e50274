import Mathlib.Data.List.Nodup
import Vigil.Proofs.Exec.Run
import Vigil.Proofs.Key.Identity

/-!
# Vigil.Proofs.Switch.Labels — what is collected from the labels of a switch

A value label is replaced by the constant it evaluates to, and its key is
collected with the number of its arm. While no problem is found, what is
collected grows by exactly the labels (`Draft.Gains`), one after the other and
arm after arm, and no key is collected twice. Keys are the same exactly when
values match (`Key.encode?_eq_iff_matches`), so the collected keys stand for
the values of the labels. A switch that passed its checks holds them all
(`Switch.MadeOf.collected`).
-/

namespace Vigil

variable {es : List Expr} {key : Key} {ts : List TypeCase} {cs : List Case} {k : Nat}

/-! ## Equal values -/

namespace Double

/-- Doubles of equal number are the same, or the two zeros. -/
theorem eq_or_isZero_of_numEq {d e : Double} (h : d.numEq e = true) :
    d = e ∨ d.isZero = true ∧ e.isZero = true := by
  have hrank : d.rank = e.rank := by
    unfold numEq compare? at h
    split at h
    · cases h
    · exact compare_eq_iff_eq.mp (by simpa using h)
  have hd := d.bits.toNat_lt
  have he := e.bits.toNat_lt
  have hsign : signWeight = 0x8000000000000000 := rfl
  simp only [rank, isNegative, field, decide_eq_true_eq, hsign] at hrank
  -- the sign and the field make up the word, and only at zero does the sign not count
  by_cases hzero : d.bits.toNat % 0x8000000000000000 = 0
  · right
    have hzero' : e.bits.toNat % 0x8000000000000000 = 0 := by
      split at hrank <;> split at hrank <;> omega
    exact ⟨decide_eq_true hzero, decide_eq_true hzero'⟩
  · left
    have hbits : d.bits.toNat = e.bits.toNat := by
      split at hrank <;> split at hrank <;> omega
    have hwords : d.bits = e.bits := UInt64.toNat_inj.mp hbits
    obtain ⟨b⟩ := d
    obtain ⟨c⟩ := e
    exact congrArg Double.mk hwords

theorem numEq_of_isZero {d e : Double} (hd : d.isZero = true) (he : e.isZero = true) :
    d.numEq e = true := by
  have hfield : d.field = 0 ∧ e.field = 0 := ⟨of_decide_eq_true hd, of_decide_eq_true he⟩
  have hrank : d.rank = 0 ∧ e.rank = 0 := by simp [rank, hfield]
  simp [numEq, compare?, isNaN, hfield, hrank]

end Double

namespace Value

/-- The values are equal. A NaN, which equals nothing, matches itself. -/
def Matches (a b : Value) : Prop := a.equal b = true ∨ a = b

instance (a b : Value) : Decidable (a.Matches b) := inferInstanceAs (Decidable (_ ∨ _))

theorem sameUpToZero_of_equal {a b : Value} (h : a.equal b = true) : a.SameUpToZero b := by
  cases a <;> cases b <;> simp only [equal, Bool.false_eq_true, beq_iff_eq] at h
  case double.double d e =>
    rcases Double.eq_or_isZero_of_numEq h with rfl | ⟨hd, he⟩
    · exact .inl rfl
    · exact .inr ⟨d, e, rfl, rfl, hd, he⟩
  all_goals exact .inl (by rw [h])

theorem matches_iff_sameUpToZero {a b : Value} : a.Matches b ↔ a.SameUpToZero b := by
  constructor
  · rintro (h | rfl)
    · exact sameUpToZero_of_equal h
    · exact .inl rfl
  · rintro (rfl | ⟨d, e, rfl, rfl, hd, he⟩)
    · exact .inr rfl
    · exact .inl (Double.numEq_of_isZero hd he)

end Value

/-- Under one type, values share a key exactly when they match. -/
theorem Key.encode?_eq_iff_matches {ty : Ty} {a b : Value} {k : Key}
    (ha : encode? true [ty] [a] = some k) : encode? true [ty] [b] = some k ↔ a.Matches b := by
  rw [Value.matches_iff_sameUpToZero, ← Value.canonical_eq_iff]
  constructor
  · intro hb
    have hread := (decode_encode ha).symm.trans (decode_encode hb)
    simpa using hread
  · intro hcanon
    have hlist : [b].map Value.canonical = [a].map Value.canonical := by simp [hcanon]
    rw [← encode?_canonical, hlist, encode?_canonical]
    exact ha

/-! ## Constant labels -/

/-- A sign does not look at the heap. -/
theorem UnaryOp.apply_of_empty {op : UnaryOp} {u v : Value} (h : Heap)
    (hv : op.apply .empty u = .ok v) : op.apply h u = .ok v := by
  cases op <;> cases u <;> first | exact hv | cases hv

namespace Expr

variable {e : Expr}

/-- A constant expression evaluates to its constant in any frame and world. -/
theorem eval_of_fold {v : Value} (hv : e.fold? = some v) (f : FrameRef) (w : World) :
    (e.eval f).runFrom w = (.ok v, w) := by
  fun_induction fold? e generalizing v with
  | case1 u i =>
    cases hv
    rfl
  | case2 id i => simp [eval, hv]
  | case3 => cases hv
  | case4 op e i hop u hu ih =>
    have happly : op.apply .empty u = .ok v := by
      revert hv
      rcases op.apply .empty u with s | u'
      · intro hnone
        cases hnone
      · intro hsome
        cases hsome
        rfl
    unfold eval
    rw [Exec.runFrom_bind, ih hu]
    change (Exec.ofStop (op.apply w.heap u)).runFrom w = _
    rw [UnaryOp.apply_of_empty w.heap happly]
    rfl
  | case5 => cases hv
  | case6 => cases hv

/-- The label stands for the constant that it evaluates to everywhere. One of
type `error` stays what it is. -/
def FoldsTo (e e' : Expr) : Prop :=
  e.isError = true ∧ e' = e ∨
    ∃ v, e' = constant v e.span ∧ ∀ f w, (e.eval f).runFrom w = (.ok v, w)

/-- The value of a label; one of type `error` has none. -/
def labelValue? (e : Expr) : Option Value := if e.isError then none else e.fold?

theorem labelValue?_constant (v : Value) (span : Span) :
    (constant v span).labelValue? = some v := by
  cases v <;> rfl

theorem labelValue?_of_isError (h : e.isError = true) : e.labelValue? = none := if_pos h

end Expr

namespace Labels

/-- The values of the labels. -/
def consts : Labels → List Value
  | .values es => es.filterMap Expr.labelValue?
  | .types _ | .default => []

/-- The labels that name types. -/
def typeCases : Labels → List TypeCase
  | .types ts => ts
  | .values _ | .default => []

inductive FoldsTo : Labels → Labels → Prop
  | values {es es' : List Expr} (h : List.Forall₂ Expr.FoldsTo es es') :
    FoldsTo (.values es) (.values es')
  | types (ts : List TypeCase) : FoldsTo (.types ts) (.types ts)
  | default : FoldsTo .default .default

end Labels

/-- The arm is the written one, up to its value labels. -/
structure Case.FoldsTo (c c' : Case) : Prop where
  labels : c.labels.FoldsTo c'.labels
  body : c'.body = c.body
  span : c'.span = c.span

/-- No label caused an error or broke an invariant. -/
structure Dispatch.Draft.Clean (d : Draft) : Prop where
  problems : ∀ p ∈ d.problems, p.isError = false
  breach : d.breach? = none

namespace Dispatch

/-- The value labels of arms counted from `n`, each with its arm. -/
def valueArms (n : Nat) (arms : List Case) : List (Value × Nat) :=
  (arms.zipIdx n).flatMap fun (c, k) => c.labels.consts.map (·, k)

/-- The type labels of arms counted from `n`, each with its arm. -/
def typeArms (n : Nat) (arms : List Case) : List TypeArm :=
  (arms.zipIdx n).flatMap fun (c, k) => c.labels.typeCases.map fun t => ⟨t.ty, t.binding?, k⟩

/-! ## Collecting -/

namespace Draft

variable {ty : Ty} {selector : Expr} {arm : Nat} {d d' d'' : Draft} {span : Span} {label : Expr}

/-- A problem among labels is an error. -/
theorem not_clean_report {p : Problem} {related : Option Span} (hp : p.isError = true) :
    ¬ (d.report p span related).Clean := by
  intro h
  have hlast := h.problems ⟨p, span, related⟩ (List.mem_append_right _ List.mem_cons_self)
  exact absurd (hp.symm.trans hlast) (by decide)

/-- From `d` to `d'` these value labels, type labels and default were collected
under a selector of type `ty`, and nothing was wrong before. Under a selector
that failed its checks no value label is collected. -/
structure Gains (ty : Ty) (values : List (Value × Nat)) (types : List TypeArm)
    (default? : Option Nat) (d d' : Draft) : Prop where
  clean : d.Clean
  values : d'.values.map (fun l => (some l.1, l.2.1)) =
    d.values.map (fun l => (some l.1, l.2.1)) ++
      (if ty.isError then [] else values).map fun l => (Key.encode? true [ty] [l.1], l.2)
  nodup : (d.values.map Prod.fst).Nodup → (d'.values.map Prod.fst).Nodup
  types : d'.types = d.types ++ types
  default : d'.default?.map Prod.fst = (d.default?.map Prod.fst <|> default?)

theorem Gains.refl (h : d.Clean) : Gains ty [] [] none d d :=
  ⟨h, by simp, id, by simp, by simp⟩

theorem Gains.trans {vs vs' : List (Value × Nat)} {ts ts' : List TypeArm} {o o' : Option Nat}
    (h : Gains ty vs ts o d d') (h' : Gains ty vs' ts' o' d' d'') :
    Gains ty (vs ++ vs') (ts ++ ts') (o <|> o') d d'' where
  clean := h.clean
  values := by
    rw [h'.values, h.values, List.append_assoc, ← List.map_append]
    split <;> rfl
  nodup hd := h'.nodup (h.nodup hd)
  types := by rw [h'.types, h.types, List.append_assoc]
  default := by
    rw [h'.default, h.default]
    cases d.default? <;> rfl

theorem not_mem_of_labelled? (h : d.labelled? key = none) : key ∉ d.values.map Prod.fst := by
  intro hkey
  obtain ⟨l, hl, rfl⟩ := List.mem_map.mp hkey
  have hnone := List.find?_eq_none.mp (Option.map_eq_none_iff.mp h) l hl
  exact hnone (by simp)

/-- What one value label does when nothing is wrong after it: a label of type
`error` is passed over, any other is a constant, and under a selector that
passed its checks that constant has a key no label had before. -/
theorem valueLabel_cases (h : (d.valueLabel selector arm label).2.Clean) :
    label.isError = true ∧ d.valueLabel selector arm label = (label, d) ∨
      ∃ v, label.fold? = some v ∧
        (selector.isError = true ∧
            d.valueLabel selector arm label = (.constant v label.span, d) ∨
          selector.isError = false ∧ ∃ key, Key.encode? true [selector.ty] [v] = some key ∧
            key ∉ d.values.map Prod.fst ∧
            d.valueLabel selector arm label = (.constant v label.span,
              { d with values := d.values ++ [(key, arm, label.span)] })) := by
  unfold valueLabel at h ⊢
  by_cases herror : label.isError = true
  · exact .inl ⟨herror, if_pos herror⟩
  rw [if_neg herror] at h ⊢
  right
  cases hfold : label.fold? with
  | none =>
    rw [hfold] at h
    exact absurd h (not_clean_report rfl)
  | some v =>
    refine ⟨v, rfl, ?_⟩
    rw [hfold] at h
    dsimp only at h ⊢
    by_cases hsel : selector.isError = true
    · exact .inl ⟨hsel, if_pos hsel⟩
    rw [if_neg hsel] at h ⊢
    refine .inr ⟨Bool.eq_false_iff.mpr hsel, ?_⟩
    cases hkey : Key.encode? true [selector.ty] [v] with
    | none =>
      rw [hkey] at h
      cases h.breach
    | some key =>
      rw [hkey] at h
      dsimp only at h ⊢
      cases hlabelled : d.labelled? key with
      | some first =>
        rw [hlabelled] at h
        exact absurd h (not_clean_report rfl)
      | none => exact ⟨key, rfl, not_mem_of_labelled? hlabelled, rfl⟩

theorem gains_valueLabel (h : (d.valueLabel selector arm label).2.Clean) :
    label.FoldsTo (d.valueLabel selector arm label).1 ∧
      Gains selector.ty ((d.valueLabel selector arm label).1.labelValue?.toList.map (·, arm)) []
        none d (d.valueLabel selector arm label).2 := by
  rcases valueLabel_cases h with ⟨herror, heq⟩ | ⟨v, hfold, hv⟩
  · rw [heq] at h ⊢
    rw [Expr.labelValue?_of_isError herror]
    exact ⟨.inl ⟨herror, rfl⟩, .refl h⟩
  · have hfolds : label.FoldsTo (.constant v label.span) := .inr ⟨v, rfl, Expr.eval_of_fold hfold⟩
    rcases hv with ⟨hsel, heq⟩ | ⟨hsel, key, hkey, hnew, heq⟩
    · rw [heq] at h ⊢
      have hty : selector.ty.isError = true := hsel
      exact ⟨hfolds, h, by simp [hty], id, by simp, by simp⟩
    · rw [heq] at h ⊢
      refine ⟨hfolds, ⟨h.problems, h.breach⟩, ?_, fun hnodup => ?_, by simp, by simp⟩
      · have hty : selector.ty.isError = false := hsel
        simp [Expr.labelValue?_constant, hkey, hty]
      · rw [List.map_append, List.map_singleton, ← List.concat_eq_append]
        exact List.Nodup.concat hnew hnodup

/-- The value labels of one arm, in order. -/
theorem gains_valueLabels (h : (valueLabels selector arm es d).2.Clean) :
    List.Forall₂ Expr.FoldsTo es (valueLabels selector arm es d).1 ∧
      Gains selector.ty
        (((valueLabels selector arm es d).1.filterMap Expr.labelValue?).map (·, arm)) [] none d
        (valueLabels selector arm es d).2 := by
  induction es generalizing d with
  | nil => exact ⟨.nil, .refl h⟩
  | cons e es ih =>
    obtain ⟨hrest, hgains⟩ := ih h
    obtain ⟨hlabel, hgain⟩ := gains_valueLabel hgains.clean
    refine ⟨.cons hlabel hrest, ?_⟩
    have hboth := hgain.trans hgains
    rw [List.filterMap_eq_flatMap_toList, ← List.map_append] at hboth
    rw [List.filterMap_eq_flatMap_toList]
    exact hboth

theorem gains_typeLabel {t : TypeCase} (h : (d.typeLabel selector arm t).Clean) :
    Gains selector.ty [] [⟨t.ty, t.binding?, arm⟩] none d (d.typeLabel selector arm t) := by
  unfold typeLabel at h ⊢
  split at h
  · exact absurd h (not_clean_report rfl)
  · split at h
    · exact absurd h (not_clean_report rfl)
    · rename_i hcast hnew
      rw [if_neg hcast, if_neg hnew]
      exact ⟨⟨h.problems, h.breach⟩, by simp, id, rfl, by simp⟩

theorem gains_typeLabels (h : (ts.foldl (typeLabel selector arm) d).Clean) :
    Gains selector.ty [] (ts.map fun t => ⟨t.ty, t.binding?, arm⟩) none d
      (ts.foldl (typeLabel selector arm) d) := by
  induction ts generalizing d with
  | nil => exact .refl h
  | cons t ts ih =>
    have hgains := ih h
    exact (gains_typeLabel hgains.clean).trans hgains

/-- Value labels are looked at only where they fit the selector. -/
theorem labels_values_eq (h : (labels selector arm span (.values es) d).2.Clean) :
    labels selector arm span (.values es) d =
      (.values (valueLabels selector arm es d).1, (valueLabels selector arm es d).2) := by
  dsimp only [labels] at h ⊢
  split at h
  · exact absurd h (not_clean_report rfl)
  · rename_i hatomic
    split at h
    · exact absurd h (not_clean_report rfl)
    · rename_i hsame
      rw [if_neg hatomic, if_neg hsame]

theorem labels_default_eq (h : (labels selector arm span .default d).2.Clean) :
    d.default? = none ∧ labels selector arm span .default d =
      (.default, { d with default? := some (arm, span) }) := by
  dsimp only [labels] at h ⊢
  cases hdefault : d.default? with
  | some first =>
    rw [hdefault] at h
    exact absurd h (not_clean_report rfl)
  | none => exact ⟨rfl, rfl⟩

/-- The labels of one arm. -/
theorem gains_labels {ls : Labels} (body : Stmt) (h : (labels selector arm span ls d).2.Clean) :
    ls.FoldsTo (labels selector arm span ls d).1 ∧
      Gains selector.ty ((labels selector arm span ls d).1.consts.map (·, arm))
        ((labels selector arm span ls d).1.typeCases.map fun t => ⟨t.ty, t.binding?, arm⟩)
        (if (Case.mk (labels selector arm span ls d).1 body span).isDefault then some arm else none)
        d (labels selector arm span ls d).2 := by
  cases ls with
  | values es =>
    have heq := labels_values_eq h
    rw [heq] at h ⊢
    obtain ⟨hfolds, hgains⟩ := gains_valueLabels h
    exact ⟨.values hfolds, hgains⟩
  | types ts => exact ⟨.types ts, gains_typeLabels h⟩
  | default =>
    obtain ⟨hnone, heq⟩ := labels_default_eq h
    rw [heq] at h ⊢
    refine ⟨.default, ⟨h.problems, h.breach⟩, by simp [Labels.consts], id,
      (List.append_nil _).symm, ?_⟩
    rw [hnone]
    rfl

/-- The labels of all arms. -/
theorem gains_cases {n : Nat} (h : (cases selector n cs d).2.Clean) :
    List.Forall₂ Case.FoldsTo cs (cases selector n cs d).1 ∧
      Gains selector.ty (valueArms n (cases selector n cs d).1)
        (typeArms n (cases selector n cs d).1)
        (((cases selector n cs d).1.findIdx? Case.isDefault).map (· + n)) d
        (cases selector n cs d).2 := by
  induction cs generalizing n d with
  | nil => exact ⟨.nil, .refl h⟩
  | cons c cs ih =>
    obtain ⟨ls, body, span⟩ := c
    obtain ⟨hrest, hgains⟩ := ih h
    obtain ⟨hlabels, hgain⟩ := gains_labels body hgains.clean
    refine ⟨.cons ⟨hlabels, rfl, rfl⟩ hrest, ?_⟩
    -- an arm further on counts from one more
    have hdefault : ∀ (c : Case) (rest : List Case),
        ((if c.isDefault then some n else none) <|>
            (rest.findIdx? Case.isDefault).map (· + (n + 1))) =
          ((c :: rest).findIdx? Case.isDefault).map (· + n) := by
      intro c rest
      rw [List.findIdx?_cons]
      cases c.isDefault with
      | true => simp
      | false => simp [Function.comp_def, Nat.add_assoc, Nat.add_comm 1 n]
    have hboth := hgain.trans hgains
    rw [hdefault] at hboth
    exact hboth

end Draft

end Dispatch

namespace Dispatch

variable {arms : List Case} {v : Value}

/-! ## Labels and their arms -/

theorem mem_valueArms :
    (v, k) ∈ valueArms 0 arms ↔ ∃ c, arms[k]? = some c ∧ v ∈ c.labels.consts := by
  simp only [valueArms, List.mem_flatMap, List.mem_map, Prod.mk.injEq, Prod.exists,
    List.mem_zipIdx_iff_getElem?]
  constructor
  · rintro ⟨c, i, hc, u, hu, rfl, rfl⟩
    exact ⟨c, hc, hu⟩
  · rintro ⟨c, hc, hv⟩
    exact ⟨c, k, hc, v, hv, rfl, rfl⟩

theorem map_fst_valueArms (n : Nat) (arms : List Case) :
    (valueArms n arms).map Prod.fst = arms.flatMap fun c => c.labels.consts := by
  induction arms generalizing n with
  | nil => rfl
  | cons c arms ih =>
    have hcons : valueArms n (c :: arms) =
        c.labels.consts.map (·, n) ++ valueArms (n + 1) arms := rfl
    rw [hcons, List.map_append, ih, List.map_map, List.flatMap_cons]
    simp [Function.comp_def]

/-- Where no arm has type labels, none are tried. -/
theorem typeArms_eq_nil (n : Nat) (h : ∀ c ∈ arms, ∀ ts, c.labels ≠ .types ts) :
    typeArms n arms = [] := by
  refine List.flatMap_eq_nil_iff.mpr fun ⟨c, k⟩ hc => ?_
  have hc' := h c (List.fst_mem_of_mem_zipIdx hc)
  dsimp only
  cases hls : c.labels with
  | types ts => exact absurd hls (hc' ts)
  | values es => rfl
  | default => rfl

theorem valueArms_eq_nil (n : Nat) (h : ∀ c ∈ arms, ∀ es, c.labels ≠ .values es) :
    valueArms n arms = [] := by
  refine List.flatMap_eq_nil_iff.mpr fun ⟨c, k⟩ hc => ?_
  have hc' := h c (List.fst_mem_of_mem_zipIdx hc)
  dsimp only
  cases hls : c.labels with
  | values es => exact absurd hls (hc' es)
  | types ts => rfl
  | default => rfl

theorem isMixed_of_mem {c c' : Case} (hc : c ∈ cs) (hes : c.labels = .values es) (hc' : c' ∈ cs)
    (hts : c'.labels = .types ts) :
    isMixed cs = true := by
  unfold isMixed
  rw [Bool.and_eq_true, List.any_eq_true, List.any_eq_true]
  exact ⟨⟨c, hc, by rw [hes]⟩, c', hc', by rw [hts]⟩

/-- Every arm folds one that was written. -/
theorem exists_written {written : List Case} (h : List.Forall₂ Case.FoldsTo written arms)
    {c' : Case} (hc' : c' ∈ arms) : ∃ c ∈ written, c.FoldsTo c' := by
  induction h with
  | nil => cases hc'
  | cons hc _ ih =>
    rcases List.mem_cons.mp hc' with rfl | hmem
    · exact ⟨_, List.mem_cons_self, hc⟩
    · obtain ⟨c, hmem', hfolds⟩ := ih hmem
      exact ⟨c, List.mem_cons_of_mem _ hmem', hfolds⟩

end Dispatch

/-! ## Switches -/

/-- A switch as it was built. -/
structure Switch where
  selector : Expr
  arms : List Case
  dispatch : Dispatch

/-- The arms and the dispatch are what was made, without a problem, of the arms
as they were written. -/
structure Switch.MadeOf (written : List Case) (s : Switch) : Prop where
  arms : (Dispatch.ofCases s.selector written).1 = s.arms
  clean : (Dispatch.ofCases s.selector written).2.Clean
  dispatch : s.dispatch = .ofDraft (Dispatch.ofCases s.selector written).2

namespace Switch

variable {written : List Case} {s : Switch} {c : Case}

def HasValues (s : Switch) : Prop := ∃ c ∈ s.arms, ∃ es, c.labels = .values es

def HasTypes (s : Switch) : Prop := ∃ c ∈ s.arms, ∃ ts, c.labels = .types ts

theorem hasValues_of_mem {l : Value} (hc : s.arms[k]? = some c) (hl : l ∈ c.labels.consts) :
    s.HasValues := by
  refine ⟨c, List.mem_of_getElem? hc, ?_⟩
  cases hls : c.labels with
  | values es => exact ⟨es, rfl⟩
  | types ts =>
    rw [hls] at hl
    cases hl
  | default =>
    rw [hls] at hl
    cases hl

theorem hasTypes_of_typeArms_ne_nil (h : Dispatch.typeArms 0 s.arms ≠ []) : s.HasTypes := by
  by_contra hno
  exact h (Dispatch.typeArms_eq_nil 0 fun c hc ts hts => hno ⟨c, hc, ts, hts⟩)

/-- What the dispatch of a switch holds: the keys of its value labels, each
once, its type labels in order, and its default. -/
structure Collected (s : Switch) : Prop where
  values : s.dispatch.values.map (fun l => (some l.1, l.2)) =
    (if s.selector.ty.isError then [] else Dispatch.valueArms 0 s.arms).map
      fun l => (Key.encode? true [s.selector.ty] [l.1], l.2)
  nodup : (s.dispatch.values.map Prod.fst).Nodup
  types : s.dispatch.types = Dispatch.typeArms 0 s.arms
  default : s.dispatch.default? = s.arms.findIdx? Case.isDefault
  notMixed : ¬ (s.HasValues ∧ s.HasTypes)

/-- A switch that passed its checks collected all its labels. -/
theorem MadeOf.collected (h : s.MadeOf written) :
    List.Forall₂ Case.FoldsTo written s.arms ∧ s.Collected := by
  obtain ⟨harms, hclean, hdispatch⟩ := h
  obtain ⟨selector, arms, dispatch⟩ := s
  dsimp only at harms hclean hdispatch ⊢
  subst harms hdispatch
  unfold Dispatch.ofCases at hclean ⊢
  dsimp only at hclean ⊢
  cases hmixed : Dispatch.isMixed written with
  | true =>
    rw [hmixed] at hclean
    exact absurd hclean (Dispatch.Draft.not_clean_report rfl)
  | false =>
    rw [hmixed] at hclean
    obtain ⟨hfolds, hgains⟩ := Dispatch.Draft.gains_cases hclean
    refine ⟨hfolds, ?_, ?_, hgains.types, ?_, ?_⟩
    · have hvalues := hgains.values
      simpa [Dispatch.ofDraft, Function.comp_def, Dispatch.Draft.empty] using hvalues
    · have hnodup := hgains.nodup .nil
      simpa [Dispatch.ofDraft, Function.comp_def] using hnodup
    · have hdefault := hgains.default
      simpa [Dispatch.ofDraft, Function.comp_def, Dispatch.Draft.empty] using hdefault
    · -- the arms as written would mix the two sorts as well
      rintro ⟨⟨c, hc, es, hes⟩, c', hc', ts, hts⟩
      obtain ⟨b, hb, hfold⟩ := Dispatch.exists_written hfolds hc
      obtain ⟨b', hb', hfold'⟩ := Dispatch.exists_written hfolds hc'
      have hvalues := hfold.labels
      have htypes := hfold'.labels
      rw [hes] at hvalues
      rw [hts] at htypes
      generalize hls : b.labels = ls at hvalues
      generalize hls' : b'.labels = ls' at htypes
      cases hvalues
      cases htypes
      have htrue := Dispatch.isMixed_of_mem hb hls hb' hls'
      exact absurd (htrue.symm.trans hmixed) (by decide)

namespace Collected

variable {k : Nat}

theorem values_of_ok (hs : s.Collected) (hsel : s.selector.isError = false) :
    s.dispatch.values.map (fun l => (some l.1, l.2)) =
      (Dispatch.valueArms 0 s.arms).map
        fun l => (Key.encode? true [s.selector.ty] [l.1], l.2) := by
  have hty : s.selector.ty.isError = false := hsel
  simpa [hty] using hs.values

/-- The keys are those of the labels. -/
theorem mem_values (hs : s.Collected) (hsel : s.selector.isError = false) :
    (key, k) ∈ s.dispatch.values ↔ ∃ c, s.arms[k]? = some c ∧
      ∃ l ∈ c.labels.consts, Key.encode? true [s.selector.ty] [l] = some key := by
  have hmem : (key, k) ∈ s.dispatch.values ↔
      (some key, k) ∈ s.dispatch.values.map fun l => (some l.1, l.2) := by simp
  rw [hmem, hs.values_of_ok hsel, List.mem_map]
  constructor
  · rintro ⟨⟨l, i⟩, hl, heq⟩
    obtain ⟨hkey, rfl⟩ := Prod.mk.inj heq
    obtain ⟨c, hc, hl⟩ := Dispatch.mem_valueArms.mp hl
    exact ⟨c, hc, l, hl, hkey⟩
  · rintro ⟨c, hc, l, hl, hkey⟩
    exact ⟨(l, k), Dispatch.mem_valueArms.mpr ⟨c, hc, hl⟩, by rw [hkey]⟩

/-- Only under a selector that has keys are values looked up. -/
theorem isAtomic (hs : s.Collected) (hsel : s.selector.isError = false)
    (hvalues : s.dispatch.values ≠ []) : s.selector.ty.isAtomic = true := by
  obtain ⟨⟨key, k⟩, hmem⟩ := List.exists_mem_of_ne_nil _ hvalues
  obtain ⟨c, -, l, -, hkey⟩ := (hs.mem_values hsel).mp hmem
  exact (Key.exists_encode_singleton.mp ⟨key, hkey⟩).atomic

end Collected

end Switch

end Vigil
