import Mathlib.Data.List.Forall2
import Vigil.Heap

/-!
# Vigil.Proofs.Typing.Value — values and their types

On clean types, those that do not mention `error`, agreement is equality
(`Ty.same_iff_eq`). `Heap.HasType h v ty` says that `v` refers into the heap,
holds no string too long for a key, and has the dynamic type `ty`, or any type
at all when `ty` is `any`. Storing a value widens it to the declared type
(`HasType.coerce`), and a heap that only grows keeps what values are
(`HasType.mono`).
-/

namespace Vigil

variable {index : List Ty} {y : Ty}

/-! ## Clean types -/

namespace Ty

mutual

/-- The type does not mention `error`. -/
def clean : Ty → Bool
  | .error => false
  | .table index y => cleanList index && clean y
  | .set index => cleanList index
  | .vector e => clean e
  | .void | .bool | .int | .count | .double | .string | .time | .interval | .any => true

def cleanList : List Ty → Bool
  | [] => true
  | t :: ts => clean t && cleanList ts

end

theorem isError_of_clean {t : Ty} (h : t.clean = true) : t.isError = false := by
  cases t <;> first | rfl | cases h

mutual

/-- Clean types agree only when they are equal. -/
theorem same_iff_eq : ∀ {a b : Ty}, a.clean = true → b.clean = true → (same a b = true ↔ a = b)
  | .table i y, b, ha, hb => by
    cases b with
    | table j z =>
      simp only [clean, Bool.and_eq_true] at ha hb
      simp [same, sameList_iff_eq ha.1 hb.1, same_iff_eq ha.2 hb.2]
    | error => cases hb
    | _ => simp [same]
  | .set i, b, ha, hb => by
    cases b with
    | set j => simp [same, sameList_iff_eq (by simpa [clean] using ha) (by simpa [clean] using hb)]
    | error => cases hb
    | _ => simp [same]
  | .vector e, b, ha, hb => by
    cases b with
    | vector f => simp [same, same_iff_eq (by simpa [clean] using ha) (by simpa [clean] using hb)]
    | error => cases hb
    | _ => simp [same]
  | .void, b, _, hb | .bool, b, _, hb | .int, b, _, hb | .count, b, _, hb | .double, b, _, hb
  | .string, b, _, hb | .time, b, _, hb | .interval, b, _, hb | .any, b, _, hb => by
    cases b <;> first | cases hb; done | simp [same]

theorem sameList_iff_eq : ∀ {as bs : List Ty}, cleanList as = true → cleanList bs = true →
    (sameList as bs = true ↔ as = bs)
  | [], [], _, _ => by simp [sameList]
  | [], _ :: _, _, _ => by simp [sameList]
  | _ :: _, [], _, _ => by simp [sameList]
  | a :: as, b :: bs, ha, hb => by
    simp only [cleanList, Bool.and_eq_true] at ha hb
    simp [sameList, same_iff_eq ha.1 hb.1, sameList_iff_eq ha.2 hb.2]

end

mutual

theorem same_self : ∀ t : Ty, t.same t = true
  | .table i y => by simp [same, sameList_self i, same_self y]
  | .set i => by simp [same, sameList_self i]
  | .vector e => by simp [same, same_self e]
  | .void | .bool | .int | .count | .double | .string | .time | .interval | .any | .error => rfl

theorem sameList_self : ∀ ts : List Ty, sameList ts ts = true
  | [] => rfl
  | t :: ts => by simp [sameList, same_self t, sameList_self ts]

end

theorem canAssign_self (t : Ty) : t.canAssign t = true := by simp [canAssign, same_self]

/-- What may be stored where: the same type, anything in `any`, and numbers in
a wider type. -/
theorem canAssign_cases {a b : Ty} (ha : a.clean = true) (hb : b.clean = true)
    (h : a.canAssign b = true) :
    a = b ∨ b = .any ∨ (b = .double ∧ a.isNumeric = true) ∨ (b = .int ∧ a.isIntegral = true) := by
  simp only [canAssign, Bool.or_eq_true, same_iff_eq ha hb, decide_eq_true_eq] at h
  rcases h with (h | h) | h
  · exact .inl h
  · exact .inr (.inl h)
  · split at h
    · exact .inr (.inr (.inl ⟨rfl, h⟩))
    · exact .inr (.inr (.inr ⟨rfl, h⟩))
    · cases h

end Ty

namespace Table

variable {t : Table}

theorem eq_of_ty_eq_table (h : t.ty = .table index y) : t.index = index ∧ t.yield = some y := by
  unfold ty at h
  split at h <;> cases h
  exact ⟨rfl, ‹_›⟩

theorem eq_of_ty_eq_set (h : t.ty = .set index) : t.index = index ∧ t.yield = none := by
  unfold ty at h
  split at h <;> cases h
  exact ⟨rfl, ‹_›⟩

end Table

/-! ## Values -/

/-- Whether the value can be part of a key as far as its length goes. -/
def Value.Short : Value → Prop
  | .str s => s.length < Nat.pow 256 4
  | _ => True

namespace Heap

/-- The heap has the collection a value refers to. -/
def Has (h : Heap) : Value → Prop
  | .table r => r.idx < h.tables.size
  | .vector r => r.idx < h.vecs.size
  | _ => True

/-- The value is one of the type. -/
structure HasType (h : Heap) (v : Value) (ty : Ty) : Prop where
  has : h.Has v
  short : v.Short
  typeOf : ty = .any ∨ h.typeOf v = ty

/-- Values of the types, one for each. -/
abbrev HasTypes (h : Heap) : List Value → List Ty → Prop := List.Forall₂ h.HasType

namespace HasType

variable {h : Heap} {v : Value} {ty : Ty}

theorem any (hv : h.HasType v ty) : h.HasType v .any := ⟨hv.has, hv.short, .inl rfl⟩

theorem typeOf_eq (hv : h.HasType v ty) (hty : ty ≠ .any) : h.typeOf v = ty :=
  hv.typeOf.resolve_left hty

/-- The form of a value of an atomic type. -/
theorem ofKind (hv : h.HasType v ty) (hty : ty.isAtomic = true) : v.ofKind ty = true := by
  have htype : h.typeOf v = ty := hv.typeOf_eq (by rintro rfl; cases hty)
  subst htype
  cases v with
  | table r =>
    simp only [Heap.typeOf, Table.ty] at hty
    split at hty <;> cases hty
  | vector r => cases hty
  | _ => rfl

theorem cases_of_isNumeric (hv : h.HasType v ty) (hty : ty.isNumeric = true) :
    (∃ i, v = .int i) ∨ (∃ c, v = .count c) ∨ ∃ d, v = .double d := by
  have hatomic : ty.isAtomic = true := by cases ty <;> first | rfl | cases hty
  have hkind := hv.ofKind hatomic
  cases ty <;> cases hty <;> cases v <;> cases hkind
  · exact .inl ⟨_, rfl⟩
  · exact .inr (.inl ⟨_, rfl⟩)
  · exact .inr (.inr ⟨_, rfl⟩)

theorem exists_table (hv : h.HasType v (.table index y)) :
    ∃ r, v = .table r ∧ r.idx < h.tables.size ∧ (h.table r).ty = .table index y := by
  have htype := hv.typeOf_eq (by simp)
  cases v with
  | table r => exact ⟨r, rfl, hv.has, htype⟩
  | _ => cases htype

theorem exists_set (hv : h.HasType v (.set index)) :
    ∃ r, v = .table r ∧ r.idx < h.tables.size ∧ (h.table r).ty = .set index := by
  have htype := hv.typeOf_eq (by simp)
  cases v with
  | table r => exact ⟨r, rfl, hv.has, htype⟩
  | _ => cases htype

theorem exists_vector {elem : Ty} (hv : h.HasType v (.vector elem)) :
    ∃ r, v = .vector r ∧ r.idx < h.vecs.size ∧ (h.vec r).elem = elem := by
  have htype := hv.typeOf_eq (by simp)
  cases v with
  | table r =>
    simp only [Heap.typeOf, Table.ty] at htype
    split at htype <;> cases htype
  | vector r =>
    cases htype
    exact ⟨r, rfl, hv.has, rfl⟩
  | _ => cases htype

/-- No value is void. -/
theorem ne_void (hv : h.HasType v .void) : False := by
  have htype := hv.typeOf_eq (by simp)
  cases v with
  | table r =>
    simp only [Heap.typeOf, Table.ty] at htype
    split at htype <;> cases htype
  | _ => cases htype

/-- A number is widened to the type it is stored as. -/
theorem coerce {ty' : Ty} (hv : h.HasType v ty) (hc : ty.clean = true) (hc' : ty'.clean = true)
    (hassign : ty.canAssign ty' = true) : h.HasType (v.coerce ty') ty' := by
  rcases Ty.canAssign_cases hc hc' hassign with rfl | rfl | ⟨rfl, hnum⟩ | ⟨rfl, hint⟩
  · -- a value of the very type stays as it is
    have hsame : v.coerce ty = v := by
      unfold Value.coerce
      split <;> first | rfl | cases hv.ofKind rfl
    rwa [hsame]
  · exact hv.any
  · -- any number as a double
    cases ty <;> cases hnum <;> have hkind := hv.ofKind rfl <;> cases v <;> cases hkind <;>
      exact ⟨trivial, trivial, .inr rfl⟩
  · -- a count as an int
    cases ty <;> cases hint <;> have hkind := hv.ofKind rfl <;> cases v <;> cases hkind <;>
      exact ⟨trivial, trivial, .inr rfl⟩

end HasType

/-! ## Growth -/

/-- The heap has grown: what was there is still there, with its type. -/
structure Grows (h h' : Heap) : Prop where
  tables : h.tables.size ≤ h'.tables.size
  vecs : h.vecs.size ≤ h'.vecs.size
  table_ty : ∀ r : TableRef, r.idx < h.tables.size → (h'.table r).ty = (h.table r).ty
  vec_elem : ∀ r : VecRef, r.idx < h.vecs.size → (h'.vec r).elem = (h.vec r).elem

namespace Grows

theorem refl (h : Heap) : h.Grows h :=
  ⟨Nat.le_refl _, Nat.le_refl _, fun _ _ => rfl, fun _ _ => rfl⟩

theorem trans {h₁ h₂ h₃ : Heap} (h : h₁.Grows h₂) (h' : h₂.Grows h₃) : h₁.Grows h₃ where
  tables := Nat.le_trans h.tables h'.tables
  vecs := Nat.le_trans h.vecs h'.vecs
  table_ty r hr := (h'.table_ty r (Nat.lt_of_lt_of_le hr h.tables)).trans (h.table_ty r hr)
  vec_elem r hr := (h'.vec_elem r (Nat.lt_of_lt_of_le hr h.vecs)).trans (h.vec_elem r hr)

end Grows

/-- A value keeps its type while the heap grows. -/
theorem HasType.mono {h h' : Heap} {v : Value} {ty : Ty} (hv : h.HasType v ty)
    (hg : h.Grows h') : h'.HasType v ty := by
  obtain ⟨hhas, hshort, htype⟩ := hv
  cases v with
  | table r =>
    refine ⟨Nat.lt_of_lt_of_le hhas hg.tables, hshort, htype.imp_right fun e => ?_⟩
    rw [← e]
    exact hg.table_ty r hhas
  | vector r =>
    refine ⟨Nat.lt_of_lt_of_le hhas hg.vecs, hshort, htype.imp_right fun e => ?_⟩
    rw [← e]
    exact congrArg Ty.vector (hg.vec_elem r hhas)
  | _ => exact ⟨trivial, hshort, htype⟩

theorem HasTypes.mono {h h' : Heap} {vals : List Value} {types : List Ty}
    (hv : h.HasTypes vals types) (hg : h.Grows h') : h'.HasTypes vals types :=
  List.Forall₂.imp (fun _ _ hv => hv.mono hg) hv

end Heap

end Vigil
