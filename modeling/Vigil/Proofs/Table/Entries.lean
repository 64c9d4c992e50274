import Mathlib.Data.List.Sort
import Vigil.Table

/-!
# Vigil.Proofs.Table.Entries — entries in key order

Byte order is a linear order of keys (`Key.order` with its instances), and a
table keeps its entries sorted by it. What an operation does to sorted entries
is told by lookups alone: `find?_insertKey` and `find?_eraseKey` are the two
equations, and sorted entries with the same members are the same list
(`Sorted.ext`).
-/

namespace Vigil

open Std (TransCmp OrientedCmp LawfulEqCmp)

/-! ## Byte order -/

namespace Key

/-- Byte order is the lexicographic order of lists. -/
theorem order_eq_compareLex (a b : Key) : order a b = List.compareLex compare a b := by
  induction a generalizing b with
  | nil => cases b <;> rfl
  | cons x xs ih =>
    cases b with
    | nil => rfl
    | cons y ys => rw [order, List.compareLex_cons_cons, ih]

theorem order_eq : order = List.compareLex (compare : UInt8 → UInt8 → Ordering) := by
  funext a b
  exact order_eq_compareLex a b

instance : TransCmp order := by
  rw [order_eq]
  infer_instance

instance : LawfulEqCmp order := by
  rw [order_eq]
  infer_instance

theorem ne_of_order_lt {a b : Key} (h : order a b = .lt) : a ≠ b := by
  rintro rfl
  have heq : order a a = .eq := LawfulEqCmp.compare_eq_iff_eq.mpr rfl
  rw [h] at heq
  cases heq

theorem order_lt_of_gt {a b : Key} (h : order a b = .gt) : order b a = .lt :=
  OrientedCmp.gt_iff_lt.mp h

end Key

namespace Table

variable {k k' : Key} {v : Option Value} {e : Key × Option Value}
  {es es' : List (Key × Option Value)}

/-! ## Members -/

theorem mem_of_find? {k : Key} {v : Option Value} : ∀ {es : List (Key × Option Value)},
    find? k es = some v → (k, v) ∈ es
  | (k', v') :: rest, h => by
    simp only [find?] at h
    split at h
    · rename_i hk
      cases h
      exact hk ▸ List.mem_cons_self ..
    · exact List.mem_cons_of_mem _ (mem_of_find? h)

theorem mem_insertKey {k : Key} {v : Option Value} {e : Key × Option Value} :
    ∀ {es : List (Key × Option Value)}, e ∈ insertKey k v es → e = (k, v) ∨ e ∈ es
  | [], h => .inl (by simpa [insertKey] using h)
  | (k', v') :: rest, h => by
    simp only [insertKey] at h
    split at h
    · simpa using h
    · simp only [List.mem_cons] at h ⊢
      exact h.imp_right .inr
    · simp only [List.mem_cons] at h ⊢
      rcases h with h | h
      · exact .inr (.inl h)
      · exact (mem_insertKey h).imp_right .inr

theorem mem_of_mem_eraseKey {k : Key} {e : Key × Option Value} :
    ∀ {es : List (Key × Option Value)}, e ∈ eraseKey k es → e ∈ es
  | (k', v') :: rest, h => by
    simp only [eraseKey] at h
    split at h
    · exact List.mem_cons_of_mem _ h
    · simp only [List.mem_cons] at h ⊢
      exact h.imp_right mem_of_mem_eraseKey

theorem find?_eq_none (h : ∀ e ∈ es, e.1 ≠ k) : find? k es = none := by
  induction es with
  | nil => rfl
  | cons e rest ih =>
    obtain ⟨hhead, hrest⟩ := List.forall_mem_cons.mp h
    simp [find?, hhead, ih hrest]

/-! ## Sorted entries -/

/-- In key order; no key occurs twice. -/
def Sorted (es : List (Key × Option Value)) : Prop :=
  es.Pairwise fun a b => Key.order a.1 b.1 = .lt

theorem Sorted.find?_of_mem (hs : Sorted es) (h : (k, v) ∈ es) : find? k es = some v := by
  induction es with
  | nil => cases h
  | cons e rest ih =>
    obtain ⟨k', v'⟩ := e
    obtain ⟨hlt, hrest⟩ := List.pairwise_cons.mp hs
    rcases List.mem_cons.mp h with heq | hmem
    · cases heq
      simp [find?]
    · have hne : k' ≠ k := Key.ne_of_order_lt (hlt _ hmem)
      simp [find?, hne, ih hrest hmem]

/-- Sorted entries are told apart by their members. -/
theorem Sorted.ext (hs : Sorted es) (hs' : Sorted es') (h : ∀ e, e ∈ es ↔ e ∈ es') : es = es' := by
  -- a strict order is irreflexive, and asymmetric in particular
  have hirrefl : Std.Irrefl fun a b : Key × Option Value => Key.order a.1 b.1 = .lt :=
    ⟨fun a ha => Key.ne_of_order_lt ha rfl⟩
  have hanti : Std.Antisymm fun a b : Key × Option Value => Key.order a.1 b.1 = .lt :=
    ⟨fun a b hab hba => by
      have hgt : Key.order a.1 b.1 = .gt := OrientedCmp.gt_iff_lt.mpr hba
      rw [hab] at hgt
      cases hgt⟩
  exact List.Pairwise.eq_of_mem_iff hs hs' h

/-! ## Storing -/

theorem find?_insertKey (k k' : Key) (v : Option Value) (es : List (Key × Option Value)) :
    find? k (insertKey k' v es) = if k = k' then some v else find? k es := by
  induction es with
  | nil => simp [insertKey, find?, eq_comm]
  | cons e rest ih =>
    obtain ⟨a, u⟩ := e
    cases horder : Key.order k' a with
    | lt => simp [insertKey, horder, find?, eq_comm]
    | eq =>
      have ha : k' = a := LawfulEqCmp.eq_of_compare horder
      subst ha
      by_cases hk : k = k'
      · simp [insertKey, horder, find?, hk]
      · simp [insertKey, horder, find?, hk, Ne.symm hk]
    | gt =>
      have hne : a ≠ k' := Key.ne_of_order_lt (Key.order_lt_of_gt horder)
      by_cases hk : k = k'
      · subst hk
        simp [insertKey, horder, find?, hne, ih]
      · simp [insertKey, horder, find?, hk, ih]

theorem Sorted.insertKey (hs : Sorted es) (k : Key) (v : Option Value) :
    Sorted (insertKey k v es) := by
  induction es with
  | nil => exact List.pairwise_singleton ..
  | cons e rest ih =>
    obtain ⟨a, u⟩ := e
    obtain ⟨hlt, hrest⟩ := List.pairwise_cons.mp hs
    cases horder : Key.order k a with
    | lt =>
      have hbefore : ∀ e ∈ (a, u) :: rest, Key.order k e.1 = .lt := by
        intro e he
        rcases List.mem_cons.mp he with rfl | he
        · exact horder
        · exact TransCmp.lt_trans horder (hlt e he)
      simp only [Table.insertKey, horder]
      exact List.pairwise_cons.mpr ⟨hbefore, hs⟩
    | eq =>
      have ha : k = a := LawfulEqCmp.eq_of_compare horder
      subst ha
      simp only [Table.insertKey, horder]
      exact List.pairwise_cons.mpr ⟨hlt, hrest⟩
    | gt =>
      have hafter : ∀ e ∈ Table.insertKey k v rest, Key.order a e.1 = .lt := by
        intro e he
        rcases mem_insertKey he with rfl | he
        · exact Key.order_lt_of_gt horder
        · exact hlt e he
      simp only [Table.insertKey, horder]
      exact List.pairwise_cons.mpr ⟨hafter, ih hrest⟩

/-! ## Removing -/

theorem Sorted.find?_eraseKey (hs : Sorted es) (k k' : Key) :
    find? k (eraseKey k' es) = if k = k' then none else find? k es := by
  induction es with
  | nil => simp [eraseKey, find?]
  | cons e rest ih =>
    obtain ⟨a, u⟩ := e
    obtain ⟨hlt, hrest⟩ := List.pairwise_cons.mp hs
    by_cases ha : a = k'
    · subst ha
      -- the key stands nowhere else
      have hnone : find? a rest = none :=
        find?_eq_none fun e he => (Key.ne_of_order_lt (hlt e he)).symm
      by_cases hk : k = a
      · simp [eraseKey, hk, hnone]
      · simp [eraseKey, find?, hk, Ne.symm hk]
    · by_cases hk : k = k'
      · subst hk
        simp [eraseKey, find?, ha, ih hrest]
      · simp [eraseKey, find?, ha, hk, ih hrest]

theorem Sorted.eraseKey (hs : Sorted es) (k : Key) : Sorted (eraseKey k es) := by
  induction es with
  | nil => exact .nil
  | cons e rest ih =>
    obtain ⟨a, u⟩ := e
    obtain ⟨hlt, hrest⟩ := List.pairwise_cons.mp hs
    by_cases ha : a = k
    · simp only [Table.eraseKey, if_pos ha]
      exact hrest
    · have hafter : ∀ e ∈ Table.eraseKey k rest, Key.order a e.1 = .lt := by
        intro e he
        exact hlt e (mem_of_mem_eraseKey he)
      simp only [Table.eraseKey, if_neg ha]
      exact List.pairwise_cons.mpr ⟨hafter, ih hrest⟩

end Table

end Vigil
