import Vigil.Proofs.Key.RoundTrip
import Vigil.Proofs.Typing.Value

/-!
# Vigil.Proofs.Key.Identity — which tuples share a key

A tuple has a key exactly when each component fits its type
(`Key.exists_encode_iff`): it is of the type's kind, no collection, and short
enough if it is a string. A key reads back as the tuple it was made of up to
the sign of zero, so two tuples share a key exactly when they are the same up
to that sign (`Key.encode_identifies`).
-/

namespace Vigil

variable {v : Value} {ty : Ty}

namespace Value

/-- The values are the same, or the two zeros of a double. -/
def SameUpToZero (a b : Value) : Prop :=
  a = b ∨ ∃ d e : Double, a = .double d ∧ b = .double e ∧ d.isZero ∧ e.isZero

/-- Keys keep a value up to the sign of zero. -/
theorem canonical_eq_iff {a b : Value} : a.canonical = b.canonical ↔ a.SameUpToZero b := by
  constructor
  · intro h
    cases a <;> cases b <;> simp only [canonical, reduceCtorEq] at h
    case double.double d e =>
      rw [double.injEq] at h
      -- a double that is no zero is not turned into one
      have hzero : (⟨0⟩ : Double).isZero = true := by decide
      by_cases hd : d.isZero <;> by_cases he : e.isZero
      · exact .inr ⟨d, e, rfl, rfl, hd, he⟩
      · rw [if_pos hd, if_neg he] at h
        exact absurd (h ▸ hzero) he
      · rw [if_neg hd, if_pos he] at h
        exact absurd (h ▸ hzero) hd
      · rw [if_neg hd, if_neg he] at h
        exact .inl (by rw [h])
    all_goals exact .inl h
  · rintro (rfl | ⟨d, e, rfl, rfl, hd, he⟩)
    · rfl
    · simp [canonical, hd, he]

@[simp] theorem canonical_canonical (v : Value) : v.canonical.canonical = v.canonical := by
  cases v with
  | double d =>
    have hzero : (⟨0⟩ : Double).isZero = true := by decide
    by_cases hd : d.isZero <;> simp [canonical, hd, hzero]
  | _ => rfl

@[simp] theorem ofKind_canonical (v : Value) (ty : Ty) : v.canonical.ofKind ty = v.ofKind ty := by
  cases v with
  | double d => cases ty <;> rfl
  | _ => rfl

instance : DecidablePred Short
  | .str _ => inferInstanceAs (Decidable (_ < _))
  | .bool _ | .int _ | .count _ | .double _ | .time _ | .interval _ | .table _ | .vector _ =>
    inferInstanceAs (Decidable True)

/-- A value that can stand where the layout of a key has the type `ty`. -/
structure Fits (v : Value) (ty : Ty) : Prop where
  kind : v.ofKind ty = true
  atomic : ty.isAtomic = true
  short : v.Short

instance (v : Value) (ty : Ty) : Decidable (v.Fits ty) :=
  decidable_of_iff (v.ofKind ty = true ∧ ty.isAtomic = true ∧ v.Short)
    ⟨fun h => ⟨h.1, h.2.1, h.2.2⟩, fun h => ⟨h.kind, h.atomic, h.short⟩⟩

theorem Fits.canonical (h : v.Fits ty) : v.canonical.Fits ty where
  kind := by
    rw [ofKind_canonical]
    exact h.kind
  atomic := h.atomic
  short := by
    have hshort := h.short
    cases v <;> exact hshort

end Value

namespace Key

variable {vals : List Value} {types : List Ty}

/-! ## Which tuples have a key -/

theorem component?_canonical (v : Value) : component? v.canonical = component? v := by
  cases v with
  | double d =>
    have hzero : (⟨0⟩ : Double).isZero = true := by decide
    by_cases hd : d.isZero <;> simp [Value.canonical, component?, hd, hzero]
  | _ => rfl

/-- A value of a type's kind has bytes exactly when it fits. -/
theorem exists_component_iff (hkind : v.ofKind ty = true) :
    (∃ bytes, component? v = some bytes) ↔ v.Fits ty := by
  constructor
  · rintro ⟨bytes, hbytes⟩
    refine ⟨hkind, ?_, ?_⟩
    · cases v <;> cases ty <;> first | rfl | cases hkind; done | cases hbytes
    · cases v with
      | str s =>
        simp only [component?, Option.ite_none_right_eq_some] at hbytes
        exact hbytes.1
      | _ => trivial
  · rintro ⟨-, hatomic, hshort⟩
    cases v with
    | str s => exact ⟨_, if_pos hshort⟩
    | table r => cases ty <;> first | cases hkind; done | cases hatomic
    | vector r => cases ty <;> first | cases hkind; done | cases hatomic
    | _ => exact ⟨_, rfl⟩

/-- The key of a longer tuple: of its first component and of the rest. -/
theorem encode?_cons {k : Key} :
    encode? true (ty :: types) (v :: vals) = some k ↔
      v.ofKind ty = true ∧ ∃ front rest, component? v = some front ∧
        encode? true types vals = some rest ∧ k = front ++ rest := by
  by_cases hkind : v.ofKind ty = true
  · simp only [encode?, hkind, Bool.not_true, Bool.and_false, Bool.false_eq_true, if_false,
      true_and, Option.bind_eq_bind, Option.bind_eq_some_iff, Option.pure_def, Option.some.injEq]
    constructor
    · rintro ⟨front, hfront, rest, hrest, rfl⟩
      exact ⟨front, rest, hfront, hrest, rfl⟩
    · rintro ⟨front, rest, hfront, hrest, rfl⟩
      exact ⟨front, hfront, rest, hrest, rfl⟩
  · simp [encode?, hkind]

/-- The tuples that have a key. -/
theorem exists_encode_iff :
    (∃ k, encode? true types vals = some k) ↔ List.Forall₂ Value.Fits vals types := by
  induction types generalizing vals with
  | nil =>
    cases vals with
    | nil => simp [encode?]
    | cons v vals => simp [encode?]
  | cons ty types ih =>
    cases vals with
    | nil => simp [encode?]
    | cons v vals =>
      rw [List.forall₂_cons, ← ih]
      constructor
      · rintro ⟨k, hk⟩
        obtain ⟨hkind, front, rest, hfront, hrest, -⟩ := encode?_cons.mp hk
        exact ⟨(exists_component_iff hkind).mp ⟨front, hfront⟩, rest, hrest⟩
      · rintro ⟨hfits, rest, hrest⟩
        obtain ⟨front, hfront⟩ := (exists_component_iff hfits.kind).mpr hfits
        exact ⟨front ++ rest, encode?_cons.mpr ⟨hfits.kind, front, rest, hfront, hrest, rfl⟩⟩

/-- A value has a key under a type exactly when it fits. -/
theorem exists_encode_singleton : (∃ k, encode? true [ty] [v] = some k) ↔ v.Fits ty := by
  rw [exists_encode_iff, List.forall₂_cons]
  exact and_iff_left .nil

/-! ## Which tuples share one -/

/-- The signs of zeros do not matter for a key. -/
theorem encode?_canonical (types : List Ty) (vals : List Value) :
    encode? true types (vals.map Value.canonical) = encode? true types vals := by
  induction types generalizing vals with
  | nil => cases vals <;> rfl
  | cons ty types ih =>
    cases vals with
    | nil => rfl
    | cons v vals =>
      simp only [List.map_cons, encode?, Value.ofKind_canonical, component?_canonical, ih]

theorem map_canonical_eq_iff {vals' : List Value} :
    vals.map Value.canonical = vals'.map Value.canonical ↔
      List.Forall₂ Value.SameUpToZero vals vals' := by
  induction vals generalizing vals' with
  | nil => cases vals' <;> simp
  | cons v vals ih =>
    cases vals' with
    | nil => simp
    | cons v' vals' => simp [ih, Value.canonical_eq_iff]

/-- A key reads back as the tuple it was made of, with positive zeros, and no
other tuple has it but those that differ in the signs of zeros. -/
theorem encode_identifies {types : List Ty} {vals : List Value} {k : Key}
    (h : encode? true types vals = some k) :
    decode types k = .ok (some (vals.map Value.canonical)) ∧
      ∀ vals', encode? true types vals' = some k ↔ List.Forall₂ Value.SameUpToZero vals' vals := by
  have hdecode := decode_encode h
  refine ⟨hdecode, fun vals' => ?_⟩
  rw [← map_canonical_eq_iff]
  constructor
  · intro h'
    have hdecode' := decode_encode h'
    rw [hdecode] at hdecode'
    simpa using hdecode'.symm
  · intro heq
    rw [← encode?_canonical, heq, encode?_canonical]
    exact h

/-- A tuple of every kind of component: a negative zero, a leap second and a
negative interval among them. -/
theorem encode_identifies_mixed :
    ∃ (types : List Ty) (vals : List Value) (k : Key),
      types = [.double, .string, .time, .interval, .bool, .int, .count] ∧
      vals = [.double ⟨0x8000000000000000⟩, .str [0x61, 0x00],
        .time ⟨59, 1500000000, by decide⟩, .interval ⟨-1500000000, by decide⟩, .bool true,
        .int (-5), .count 7] ∧
      encode? true types vals = some k ∧
      decode types k = .ok (some (vals.map Value.canonical)) ∧
      vals.map Value.canonical ≠ vals ∧
      (encode? true types (vals.map Value.canonical) = some k ↔
        List.Forall₂ Value.SameUpToZero (vals.map Value.canonical) vals) := by
  let types : List Ty := [.double, .string, .time, .interval, .bool, .int, .count]
  let vals : List Value := [.double ⟨0x8000000000000000⟩, .str [0x61, 0x00],
    .time ⟨59, 1500000000, by decide⟩, .interval ⟨-1500000000, by decide⟩, .bool true,
    .int (-5), .count 7]
  have hsome : (encode? true types vals).isSome = true := by decide +kernel
  obtain ⟨k, hk⟩ := Option.isSome_iff_exists.mp hsome
  obtain ⟨hdecode, hsame⟩ := encode_identifies hk
  exact ⟨types, vals, k, rfl, rfl, hk, hdecode, by decide +kernel, hsame _⟩

end Key

end Vigil
