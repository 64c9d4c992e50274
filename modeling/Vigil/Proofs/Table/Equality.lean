import Vigil.Expr.Arith
import Vigil.Proofs.Table.Map

/-!
# Vigil.Proofs.Table.Equality — membership and the operator `==`

A table finds an entry through bytes: the index is widened to the declared
types and encoded. The operator `==` compares two values directly, whatever
mix of ints and counts they are. For the types whose values `==` tells apart
exactly, which are all atomic types but `double`, the two agree.

* `BinaryOp.apply_eq_iff` — on one component: `==` answers whether widening
  turns one value into the other.
* `Table.forall_equal_iff` — on whole indices.
* `Table.contains_iff_equal` — an index is in a table exactly when it equals
  the index of some entry, component by component.
-/

namespace Vigil

/-- Atomic types whose values are equal under `==` only when they are the same.
Doubles are not among them: there are two zeros, and a NaN equals nothing. -/
def Ty.isDiscrete : Ty → Bool
  | .bool | .int | .count | .string | .time | .interval => true
  | _ => false

namespace Value

variable {v : Value} {ty : Ty}

/-- The value may index a component declared as `ty`: it is of that type, or a
count where an int is declared. -/
def Indexes (v : Value) (ty : Ty) : Prop :=
  v.ofKind ty = true ∨ (ty = .int ∧ v.ofKind .count = true)

instance (v : Value) (ty : Ty) : Decidable (v.Indexes ty) :=
  inferInstanceAs (Decidable (_ ∨ (_ ∧ _)))

/-- A value of the declared type is stored as it is. -/
theorem coerce_of_ofKind (h : v.ofKind ty = true) : v.coerce ty = v := by
  unfold coerce
  split
  · cases h
  · cases h
  · cases h
  · rfl

theorem canonical_of_isDiscrete (hty : ty.isDiscrete = true) (h : v.ofKind ty = true) :
    v.canonical = v := by
  cases v with
  | double d => cases ty <;> first | cases h; done | cases hty
  | _ => rfl

/-- An index component, widened, is of the declared type. -/
theorem Indexes.ofKind_coerce (h : v.Indexes ty) : (v.coerce ty).ofKind ty = true := by
  rcases h with h | ⟨rfl, h⟩
  · rw [coerce_of_ofKind h]
    exact h
  · cases v with
    | count c => rfl
    | _ => cases h

theorem Indexes.fits (hty : ty.isDiscrete = true) (h : v.Indexes ty) (hshort : v.Short) :
    (v.coerce ty).Fits ty where
  kind := h.ofKind_coerce
  atomic := by cases ty <;> first | rfl | cases hty
  short := by
    rcases h with h | ⟨rfl, h⟩
    · rw [coerce_of_ofKind h]
      exact hshort
    · cases v with
      | count c => trivial
      | _ => cases h

end Value

/-! ## One component -/

theorem Instant.order_eq_iff {a b : Instant} : a.order b = .eq ↔ a = b := by
  rw [Instant.order, Ordering.then_eq_eq, compare_eq_iff_eq, compare_eq_iff_eq]
  constructor
  · rintro ⟨hsecs, hnanos⟩
    cases a
    cases b
    cases hsecs
    cases hnanos
    rfl
  · rintro rfl
    exact ⟨rfl, rfl⟩

theorem Interval.nanos_inj {a b : Interval} : a.nanos = b.nanos ↔ a = b := by
  constructor
  · intro h
    cases a
    cases b
    cases h
    rfl
  · rintro rfl
    rfl

namespace BinaryOp

variable {ty : Ty} {v k : Value}

/-- Values of one discrete type are ordered, and equal only when the same. -/
theorem order?_of_ofKind (hty : ty.isDiscrete = true) (hv : v.ofKind ty = true)
    (hk : k.ofKind ty = true) :
    ∃ o, order? v k = some o ∧ (o = .eq ↔ v = k) := by
  cases ty with
  | bool =>
    cases v <;> cases hv
    cases k <;> cases hk
    exact ⟨_, rfl, by simp⟩
  | int =>
    cases v <;> cases hv
    cases k <;> cases hk
    exact ⟨_, rfl, by simp⟩
  | count =>
    cases v <;> cases hv
    cases k <;> cases hk
    exact ⟨_, rfl, by simp⟩
  | string =>
    cases v <;> cases hv
    cases k <;> cases hk
    exact ⟨_, rfl, by simp [Std.LawfulEqCmp.compare_eq_iff_eq]⟩
  | time =>
    cases v <;> cases hv
    cases k <;> cases hk
    exact ⟨_, rfl, by simp [Instant.order_eq_iff]⟩
  | interval =>
    cases v <;> cases hv
    cases k <;> cases hk
    exact ⟨_, rfl, by simp [Interval.nanos_inj]⟩
  | _ => cases hty

/-- A count against an int is compared as the int it wraps to. -/
theorem order?_count_int (c : UInt64) (i : Int64) :
    order? (.count c) (.int i) = some (compare c.toInt64 i) := rfl

/-- A comparison answers by the order of its operands. -/
theorem apply_of_order {op : BinaryOp} {o : Ordering} (heap : Heap) (hop : op.isComparison = true)
    (ho : order? v k = some o) :
    apply heap op v k = .ok (.bool (op.holds o)) := by
  unfold apply
  dsimp only
  rw [if_pos hop, ho]
  rfl

/-- `==` on an index component and a value of the declared type: they are equal
when widening turns one into the other. -/
theorem apply_eq_iff (heap : Heap) (hty : ty.isDiscrete = true) (hv : v.Indexes ty)
    (hk : k.ofKind ty = true) :
    apply heap .eq v k = .ok (.bool true) ↔ v.coerce ty = k := by
  obtain ⟨o, ho, hequal⟩ : ∃ o, order? v k = some o ∧ (o = .eq ↔ v.coerce ty = k) := by
    rcases hv with hv | ⟨rfl, hv⟩
    · rw [Value.coerce_of_ofKind hv]
      exact order?_of_ofKind hty hv hk
    · cases v <;> cases hv
      cases k <;> cases hk
      exact ⟨_, order?_count_int _ _, by simp [Value.coerce]⟩
  rw [apply_of_order heap rfl ho, ← hequal]
  simp [holds]

end BinaryOp

/-! ## Indices -/

namespace Table

variable {ty : Ty} {t₀ : Table} {types : List Ty} {index : List Value}

/-- The operator `==` holds between two values. -/
def Equal (heap : Heap) (v k : Value) : Prop := BinaryOp.apply heap .eq v k = .ok (.bool true)

theorem fitsIndex_of_indexes (htypes : ∀ ty ∈ types, ty.isDiscrete = true)
    (hindex : List.Forall₂ Value.Indexes index types) (hshort : ∀ v ∈ index, v.Short) :
    FitsIndex types index := by
  unfold FitsIndex
  induction hindex with
  | nil => exact .nil
  | cons hv _ ih =>
    obtain ⟨hty, htypes⟩ := List.forall_mem_cons.mp htypes
    obtain ⟨hv', hshort⟩ := List.forall_mem_cons.mp hshort
    exact .cons (hv.fits hty hv') (ih htypes hshort)

/-- An index equals a tuple component by component when it stands for it. -/
theorem forall_equal_iff (heap : Heap) {vals : List Value}
    (htypes : ∀ ty ∈ types, ty.isDiscrete = true) (hindex : List.Forall₂ Value.Indexes index types)
    (hvals : List.Forall₂ Value.Fits vals types) :
    List.Forall₂ (Equal heap) index vals ↔ Tuple.widened types index = vals := by
  induction hindex generalizing vals with
  | nil =>
    cases hvals
    simp [Tuple.widened]
  | @cons v ty index types hv hrest ih =>
    obtain ⟨hty, htypes⟩ := List.forall_mem_cons.mp htypes
    cases hvals with
    | @cons k _ vals _ hk hvals =>
      -- no component is a double, so no sign of a zero is dropped
      have hcanonical : (v.coerce ty).canonical = v.coerce ty :=
        Value.canonical_of_isDiscrete hty hv.ofKind_coerce
      have hhead : Equal heap v k ↔ v.coerce ty = k := BinaryOp.apply_eq_iff heap hty hv hk.kind
      rw [List.forall₂_cons, hhead, ih htypes hvals]
      simp [Tuple.widened, hcanonical]

/-- Membership agrees with `==`. In every state that calls on an empty table
lead to, an index whose components are of the declared types, or counts where
ints are declared, has an answer, the entries can be listed, and the answer is
yes exactly when the index of some entry equals it in every component. -/
theorem contains_iff_equal (h : ofTy? ty = some t₀)
    (htypes : ∀ ty ∈ t₀.index, ty.isDiscrete = true) (calls : List Call) (index : List Value)
    (hindex : List.Forall₂ Value.Indexes index t₀.index) (hshort : ∀ v ∈ index, v.Short)
    (heap : Heap) :
    let t := (runCalls call t₀ calls).2
    ∃ found entries, t.contains index = .ok found ∧ t.toList = .ok entries ∧
      (found = true ↔ ∃ e ∈ entries, List.Forall₂ (Equal heap) index e.1) := by
  intro t
  have hrep := ((Represents.empty h).runCalls calls).2
  set m := (runCalls (IndexMap.call ty) (∅ : IndexMap t₀.index) calls).2
  have hfits : FitsIndex t₀.index index := fitsIndex_of_indexes htypes hindex hshort
  obtain ⟨k, hk⟩ := Tuple.exists_of_fits hfits
  have hvals : k.vals = Tuple.widened t₀.index index := by
    rw [Tuple.of?, dif_pos hfits, Option.some.injEq] at hk
    rw [← hk]
  refine ⟨_, _, hrep.contains_eq hk, hrep.toList_eq, ?_⟩
  have hentry : ∀ k' : Tuple t₀.index,
      List.Forall₂ (Equal heap) index k'.vals ↔ k' = k := by
    intro k'
    rw [forall_equal_iff heap htypes hindex k'.fits, ← hvals]
    constructor
    · intro h
      exact Tuple.ext h.symm
    · rintro rfl
      rfl
  constructor
  · intro hfound
    have hmem : k ∈ m.keys := Finmap.mem_keys.mpr (Finmap.lookup_isSome.mp hfound)
    refine ⟨(k.vals, (m.lookup k).join), ?_, (hentry k).mpr rfl⟩
    exact List.mem_map.mpr ⟨k, (Finset.mem_sort Tuple.Le).mpr hmem, rfl⟩
  · rintro ⟨e, he, hequal⟩
    obtain ⟨k', hk', rfl⟩ := List.mem_map.mp he
    have hsame : k' = k := (hentry k').mp hequal
    subst hsame
    have hmem : k' ∈ m := Finmap.mem_keys.mp ((Finset.mem_sort Tuple.Le).mp hk')
    exact Finmap.lookup_isSome.mpr hmem

/-- The largest count finds the entry made under `-1`, in a leap second and
after a negative interval; the entry of the second before was removed. -/
theorem contains_iff_equal_wrapped :
    ∃ (t₀ t : Table) (calls : List Call) (leap plain : Instant) (d : Interval) (entries : _),
      ofTy? (.set [.int, .time, .interval]) = some t₀ ∧ leap = ⟨59, 1500000000, by decide⟩ ∧
      plain = ⟨59, 500000000, by decide⟩ ∧ d = ⟨-1500000000, by decide⟩ ∧
      calls = [.assign [.int (-1), .time leap, .interval d] none,
        .assign [.int (-1), .time plain, .interval d] none,
        .remove [.count 0xffffffffffffffff, .time plain, .interval d]] ∧
      t = (runCalls call t₀ calls).2 ∧ t.toList = .ok entries ∧
      t.contains [.count 0xffffffffffffffff, .time leap, .interval d] = .ok true ∧
      (∃ e ∈ entries, List.Forall₂ (Equal .empty)
        [.count 0xffffffffffffffff, .time leap, .interval d] e.1) ∧
      t.contains [.int (-1), .time plain, .interval d] = .ok false ∧
      ¬ ∃ e ∈ entries, List.Forall₂ (Equal .empty)
        [.int (-1), .time plain, .interval d] e.1 := by
  let t₀ : Table := ⟨[.int, .time, .interval], none, [], 0⟩
  let leap : Instant := ⟨59, 1500000000, by decide⟩
  let plain : Instant := ⟨59, 500000000, by decide⟩
  let d : Interval := ⟨-1500000000, by decide⟩
  let calls : List Call := [.assign [.int (-1), .time leap, .interval d] none,
    .assign [.int (-1), .time plain, .interval d] none,
    .remove [.count 0xffffffffffffffff, .time plain, .interval d]]
  have hty : ofTy? (.set [.int, .time, .interval]) = some t₀ := rfl
  have htypes : ∀ ty ∈ t₀.index, ty.isDiscrete = true := by decide +kernel
  have hyes : (runCalls call t₀ calls).2.contains
      [.count 0xffffffffffffffff, .time leap, .interval d] = .ok true := by decide +kernel
  have hno : (runCalls call t₀ calls).2.contains [.int (-1), .time plain, .interval d] =
      .ok false := by decide +kernel
  obtain ⟨found, entries, hfound, hentries, hiff⟩ := contains_iff_equal hty htypes calls
    [.count 0xffffffffffffffff, .time leap, .interval d]
    (by decide +kernel) (by decide +kernel) .empty
  obtain ⟨found', entries', hfound', hentries', hiff'⟩ := contains_iff_equal hty htypes calls
    [.int (-1), .time plain, .interval d] (by decide +kernel) (by decide +kernel) .empty
  rw [hyes, Except.ok.injEq] at hfound
  rw [hno, Except.ok.injEq] at hfound'
  rw [hentries, Except.ok.injEq] at hentries'
  rw [← hentries'] at hiff'
  exact ⟨t₀, _, calls, leap, plain, d, entries, hty, rfl, rfl, rfl, rfl, rfl, hentries, hyes,
    hiff.mp hfound.symm, hno, fun h => Bool.false_ne_true (hfound'.trans (hiff'.mpr h))⟩

end Table

end Vigil
