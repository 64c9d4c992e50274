import Vigil.Proofs.Key.Identity
import Vigil.Proofs.Table.Entries

/-!
# Vigil.Proofs.Typing.Heap — collections that conform to their types

A table conforms when every key reads back as a tuple of its index types and
every entry carries a value of its yield type, or none if it is a set; a
vector conforms when its filled positions hold values of its element type.
Each operation on a collection keeps this (`Table.Conforms.assign`,
`Vec.Conforms.assign` and their like), so a heap of conforming collections
stays one under every change of one of them (`Heap.Conforms.setTable`,
`Heap.Conforms.setVec`) and when a fresh collection is added
(`Heap.Conforms.fresh`). The text of a value in such a heap never breaks an
invariant (`Heap.Conforms.text`).
-/

namespace Vigil

variable {v : Value} {ty : Ty} {x : Vec} {a : Abort}

/-- What an entry carries fits the yield type. -/
def Heap.Carries (h : Heap) : Option Ty → Option Value → Prop
  | some y, some v => h.HasType v y
  | none, none => True
  | _, _ => False

theorem Heap.Carries.mono {h h' : Heap} {y : Option Ty} {v : Option Value} (hv : h.Carries y v)
    (hg : h.Grows h') : h'.Carries y v := by
  cases y <;> cases v <;> first | exact hv | exact hv.elim | exact Heap.HasType.mono hv hg

/-! ## Keys -/

/-- A value that fits a key is one of its type, in any heap. -/
theorem Value.Fits.hasType (hv : v.Fits ty) (h : Heap) : h.HasType v ty := by
  obtain ⟨hkind, hatomic, hshort⟩ := hv
  cases v <;> cases ty <;>
    first | exact ⟨trivial, hshort, .inr rfl⟩ | cases hkind; done | cases hatomic

theorem Value.Fits.clean (hv : v.Fits ty) : ty.clean = true := by
  have hatomic := hv.atomic
  cases ty <;> first | rfl | cases hatomic

theorem Heap.HasType.fits {h : Heap} (hv : h.HasType v ty) (hatomic : ty.isAtomic = true) :
    v.Fits ty :=
  ⟨hv.ofKind hatomic, hatomic, hv.short⟩

theorem Key.hasTypes_of_encode (h : Heap) {types : List Ty} {vals : List Value} {k : Key}
    (hk : encode? true types vals = some k) : h.HasTypes (vals.map Value.canonical) types :=
  List.forall₂_map_left_iff.mpr ((exists_encode_iff.mp ⟨k, hk⟩).imp fun _ _ hv =>
    hv.canonical.hasType h)

/-! ## Tables -/

/-- A failed `mapM` failed at some element. -/
theorem mapM_error {α β ε : Type} {f : α → Except ε β} {e : ε} :
    ∀ {l : List α}, l.mapM f = .error e → ∃ x ∈ l, f x = .error e
  | [], hl => by cases hl
  | x :: l, hl => by
    rw [List.mapM_cons] at hl
    cases hx : f x with
    | error e' =>
      rw [hx] at hl
      cases hl
      exact ⟨x, List.mem_cons_self .., hx⟩
    | ok y =>
      rw [hx] at hl
      cases hrest : l.mapM f with
      | error e' =>
        simp only [bind, Except.bind, hrest] at hl
        cases hl
        obtain ⟨x', hx', he⟩ := mapM_error hrest
        exact ⟨x', List.mem_cons_of_mem _ hx', he⟩
      | ok ys =>
        simp only [bind, Except.bind, hrest] at hl
        cases hl

namespace Table

/-- Every key reads back as a tuple of the index types, and every entry
carries what the yield type asks for. -/
structure Conforms (h : Heap) (t : Table) : Prop where
  clean : t.ty.clean = true
  keys : ∀ e ∈ t.entries,
    ∃ vals, Key.decode t.index e.1 = .ok (some vals) ∧ h.HasTypes vals t.index
  values : ∀ e ∈ t.entries, h.Carries t.yield e.2

namespace Conforms

variable {h h' : Heap} {t t' : Table} {index : List Value}

theorem mono (ht : t.Conforms h) (hg : h.Grows h') : t.Conforms h' where
  clean := ht.clean
  keys e he := by
    obtain ⟨vals, hdecode, hvals⟩ := ht.keys e he
    exact ⟨vals, hdecode, Heap.HasTypes.mono hvals hg⟩
  values e he := (ht.values e he).mono hg

/-- Entries may be dropped, and iterations counted. -/
theorem of_entries (ht : t.Conforms h) (active : Nat) {entries : List (Key × Option Value)}
    (hsub : ∀ e ∈ entries, e ∈ t.entries) :
    Conforms h { t with entries := entries, active := active } :=
  ⟨ht.clean, fun e he => ht.keys e (hsub e he), fun e he => ht.values e (hsub e he)⟩

theorem enter (ht : t.Conforms h) : t.enter.Conforms h := ht.of_entries _ fun _ he => he

theorem leave (ht : t.Conforms h) : t.leave.Conforms h := ht.of_entries _ fun _ he => he

theorem ofTy (hty : ofTy? ty = some t) (hclean : ty.clean = true) : t.Conforms h ∧ t.ty = ty := by
  cases ty <;> cases hty <;>
    exact ⟨⟨hclean, fun _ he => (List.not_mem_nil he).elim, fun _ he =>
      (List.not_mem_nil he).elim⟩, rfl⟩

/-- Storing what the yield type asks for. Only an index that fits has a key,
so nothing need be known of it. -/
theorem assign {v : Option Value} (ht : t.Conforms h) (hassign : t.assign index v = .ok t')
    (hv : h.Carries t.yield v) :
    t'.Conforms h ∧ t'.ty = t.ty := by
  unfold Table.assign key at hassign
  split at hassign
  · rename_i k hk
    cases hassign
    refine ⟨⟨ht.clean, fun e he => ?_, fun e he => ?_⟩, rfl⟩
    · rcases mem_insertKey he with rfl | he
      · exact ⟨_, Key.decode_encode hk, Key.hasTypes_of_encode h hk⟩
      · exact ht.keys e he
    · rcases mem_insertKey he with rfl | he
      · exact hv
      · exact ht.values e he
  · cases hassign

theorem remove {found : Bool} (ht : t.Conforms h) (hremove : t.remove index = .ok (found, t')) :
    t'.Conforms h ∧ t'.ty = t.ty := by
  unfold Table.remove key at hremove
  split at hremove
  · cases hremove
    exact ⟨ht.of_entries _ fun _ he => mem_of_mem_eraseKey he, rfl⟩
  · cases hremove

theorem lookup {y : Ty} (ht : t.Conforms h) (hy : t.yield = some y)
    (hlookup : t.lookup index = .ok (some v)) : h.HasType v y := by
  unfold Table.lookup key at hlookup
  split at hlookup
  · rename_i k hk
    simp only [pure, Except.pure, bind, Except.bind, Except.ok.injEq,
      Option.join_eq_some_iff] at hlookup
    have hvalue := ht.values _ (mem_of_find? hlookup)
    rwa [hy] at hvalue
  · cases hlookup

/-- A key that is present reads back. -/
theorem indexOf {e : Key × Option Value} (ht : t.Conforms h) (he : e ∈ t.entries) :
    ∃ vals, t.indexOf e.1 = .ok vals ∧ h.HasTypes vals t.index := by
  obtain ⟨vals, hdecode, hvals⟩ := ht.keys e he
  refine ⟨vals, ?_, hvals⟩
  simp [Table.indexOf, hdecode, bind, Except.bind, pure, Except.pure]

theorem toList (ht : t.Conforms h) : ∃ entries, t.toList = .ok entries := by
  cases hl : t.toList with
  | ok entries => exact ⟨entries, rfl⟩
  | error a =>
    obtain ⟨⟨k, v⟩, he, ha⟩ := mapM_error hl
    obtain ⟨vals, hvals, -⟩ := ht.indexOf he
    dsimp only at hvals ha
    rw [hvals] at ha
    cases ha

end Conforms

end Table

/-! ## Vectors and slots -/

namespace Slots

variable {v : Value} {s : Slots} {i : Nat}

theorem get_set {s' : Slots} (h : s.set i v = .ok s') (j : Nat) :
    s'.get j = if j = i then some v else s.get j := by
  unfold set at h
  split at h
  · rename_i hi
    cases h
    by_cases hj : j = i
    · simp [get, hj, hi]
    · simp [get, hj, Ne.symm hj]
  · split at h
    · rename_i hi _
      cases h
      have hsize : (s ++ Array.replicate (i - s.size) none).size = i := by simp; omega
      unfold get
      rw [Array.getElem?_push, hsize]
      by_cases hj : j = i
      · simp [hj]
      · simp only [hj, if_false]
        -- a new position holds nothing, as one past the end does
        rcases Nat.lt_or_ge j s.size with hlt | hge
        · rw [Array.getElem?_append_left hlt]
        · rw [Array.getElem?_append_right hge, Array.getElem?_eq_none hge,
            Array.getElem?_replicate]
          split <;> rfl
    · cases h

/-- All that can keep a value from being stored is the room it needs. -/
theorem eq_capacity_of_set (h : s.set i v = .error a) : a = .capacity := by
  unfold set at h
  split at h
  · cases h
  · split at h <;> cases h
    rfl

theorem get_clear {j : Nat} (h : (s.clear i).get j = some v) : s.get j = some v := by
  unfold clear get at h
  rw [Array.getElem?_setIfInBounds] at h
  split at h
  · split at h <;> cases h
  · exact h

end Slots

namespace Vec

variable {i : Nat}

theorem eq_capacity_of_assign (h : x.assign i v = .error a) : a = .capacity := by
  unfold assign at h
  cases hset : x.slots.set i v with
  | ok slots =>
    rw [hset] at h
    cases h
  | error a' =>
    rw [hset] at h
    cases h
    exact Slots.eq_capacity_of_set hset

/-- Every filled position holds a value of the element type. -/
structure Conforms (h : Heap) (x : Vec) : Prop where
  clean : x.elem.clean = true
  values : ∀ i v, x.lookup i = some v → h.HasType v x.elem

namespace Conforms

variable {h h' : Heap} {x x' : Vec}

theorem mono (hx : x.Conforms h) (hg : h.Grows h') : x.Conforms h' :=
  ⟨hx.clean, fun i v hv => (hx.values i v hv).mono hg⟩

theorem empty {elem : Ty} (hclean : elem.clean = true) : (Vec.empty elem).Conforms h :=
  ⟨hclean, fun i v hv => by simp [lookup, Vec.empty, Slots.get] at hv⟩

theorem assign (hx : x.Conforms h) (hassign : x.assign i v = .ok x') (hv : h.HasType v x.elem) :
    x'.Conforms h ∧ x'.elem = x.elem := by
  unfold Vec.assign at hassign
  cases hset : x.slots.set i v with
  | error a =>
    rw [hset] at hassign
    cases hassign
  | ok slots =>
    rw [hset] at hassign
    cases hassign
    refine ⟨⟨hx.clean, fun j u hu => ?_⟩, rfl⟩
    simp only [lookup, Slots.get_set hset] at hu
    split at hu
    · cases hu
      exact hv
    · exact hx.values j u hu

theorem remove (hx : x.Conforms h) (i : Nat) : (x.remove i).2.Conforms h :=
  ⟨hx.clean, fun j v hv => hx.values j v (Slots.get_clear hv)⟩

end Conforms

end Vec

/-! ## The heap -/

namespace Heap

theorem table_setTable (h : Heap) (r r' : TableRef) (t : Table) :
    (h.setTable r t).table r' =
      if r' = r ∧ r.idx < h.tables.size then t else h.table r' := by
  cases r with | mk i =>
  cases r' with | mk j =>
  simp only [table, setTable, Array.getElem?_setIfInBounds, TableRef.mk.injEq]
  by_cases hj : j = i
  · subst hj
    by_cases hb : j < h.tables.size <;> simp [hb]
  · simp [hj, Ne.symm hj]

theorem vec_setVec (h : Heap) (r r' : VecRef) (x : Vec) :
    (h.setVec r x).vec r' = if r' = r ∧ r.idx < h.vecs.size then x else h.vec r' := by
  cases r with | mk i =>
  cases r' with | mk j =>
  simp only [vec, setVec, Array.getElem?_setIfInBounds, VecRef.mk.injEq]
  by_cases hj : j = i
  · subst hj
    by_cases hb : j < h.vecs.size <;> simp [hb]
  · simp [hj, Ne.symm hj]

/-- Every collection conforms to its type. A reference to nothing names an
empty collection, so no bound is asked for. -/
structure Conforms (h : Heap) : Prop where
  tables : ∀ r, (h.table r).Conforms h
  vecs : ∀ r, (h.vec r).Conforms h

namespace Conforms

variable {h h' : Heap} {t : Table}

theorem empty : Heap.empty.Conforms where
  tables r := by
    have hdefault : Heap.empty.table r = ⟨[], none, [], 0⟩ := by
      simp only [table, Heap.empty, Array.getElem?_empty]
      rfl
    have hset : Table.ofTy? (.set []) = some ⟨[], none, [], 0⟩ := rfl
    rw [hdefault]
    exact (Table.Conforms.ofTy hset rfl).1
  vecs r := by
    have hdefault : Heap.empty.vec r = .empty .void := by
      simp only [vec, Heap.empty, Array.getElem?_empty]
      rfl
    rw [hdefault]
    exact .empty rfl

/-- A table may change its entries. -/
theorem setTable {r : TableRef} (hh : h.Conforms) (ht : t.Conforms h)
    (hty : t.ty = (h.table r).ty) : (h.setTable r t).Conforms ∧ h.Grows (h.setTable r t) := by
  have hg : h.Grows (h.setTable r t) := by
    refine ⟨by simp [Heap.setTable], Nat.le_refl _, fun r' _ => ?_, fun _ _ => rfl⟩
    rw [table_setTable]
    split
    · rename_i hr
      rw [hr.1, hty]
    · rfl
  refine ⟨⟨fun r' => ?_, fun r' => (hh.vecs r').mono hg⟩, hg⟩
  rw [table_setTable]
  split
  · exact ht.mono hg
  · exact (hh.tables r').mono hg

/-- A vector may change its slots. -/
theorem setVec {r : VecRef} (hh : h.Conforms) (hx : x.Conforms h)
    (helem : x.elem = (h.vec r).elem) : (h.setVec r x).Conforms ∧ h.Grows (h.setVec r x) := by
  have hg : h.Grows (h.setVec r x) := by
    refine ⟨Nat.le_refl _, by simp [Heap.setVec], fun _ _ => rfl, fun r' _ => ?_⟩
    rw [vec_setVec]
    split
    · rename_i hr
      rw [hr.1, helem]
    · rfl
  refine ⟨⟨fun r' => (hh.tables r').mono hg, fun r' => ?_⟩, hg⟩
  rw [vec_setVec]
  split
  · exact hx.mono hg
  · exact (hh.vecs r').mono hg

theorem addTable (hh : h.Conforms) (ht : t.Conforms h) :
    (h.addTable t).2.Conforms ∧ h.Grows (h.addTable t).2 ∧
      (h.addTable t).2.HasType (.table (h.addTable t).1) t.ty := by
  have hself : (h.addTable t).2.table (h.addTable t).1 = t := by simp [table, Heap.addTable]
  have hother : ∀ r : TableRef, r.idx < h.tables.size → (h.addTable t).2.table r = h.table r := by
    intro r hr
    simp [table, Heap.addTable, Array.getElem?_push, Nat.ne_of_lt hr]
  have hg : h.Grows (h.addTable t).2 :=
    ⟨by simp [Heap.addTable], Nat.le_refl _, fun r hr => by rw [hother r hr], fun _ _ => rfl⟩
  refine ⟨⟨fun r => ?_, fun r => (hh.vecs r).mono hg⟩, hg, ?_⟩
  · rcases Nat.lt_trichotomy r.idx h.tables.size with hr | hr | hr
    · rw [hother r hr]
      exact (hh.tables r).mono hg
    · have : r = (h.addTable t).1 := by
        cases r
        exact congrArg TableRef.mk hr
      rw [this, hself]
      exact ht.mono hg
    · have hnone : (h.addTable t).2.table r = h.table r := by
        simp only [table, Heap.addTable]
        rw [Array.getElem?_eq_none (by simp; omega), Array.getElem?_eq_none (by omega)]
      rw [hnone]
      exact (hh.tables r).mono hg
  · refine ⟨by simp [Has, Heap.addTable], trivial, .inr ?_⟩
    simp only [Heap.typeOf]
    rw [hself]

theorem addVec (hh : h.Conforms) (hx : x.Conforms h) :
    (h.addVec x).2.Conforms ∧ h.Grows (h.addVec x).2 ∧
      (h.addVec x).2.HasType (.vector (h.addVec x).1) (.vector x.elem) := by
  have hself : (h.addVec x).2.vec (h.addVec x).1 = x := by simp [vec, Heap.addVec]
  have hother : ∀ r : VecRef, r.idx < h.vecs.size → (h.addVec x).2.vec r = h.vec r := by
    intro r hr
    simp [vec, Heap.addVec, Array.getElem?_push, Nat.ne_of_lt hr]
  have hg : h.Grows (h.addVec x).2 :=
    ⟨Nat.le_refl _, by simp [Heap.addVec], fun _ _ => rfl, fun r hr => by rw [hother r hr]⟩
  refine ⟨⟨fun r => (hh.tables r).mono hg, fun r => ?_⟩, hg, ?_⟩
  · rcases Nat.lt_trichotomy r.idx h.vecs.size with hr | hr | hr
    · rw [hother r hr]
      exact (hh.vecs r).mono hg
    · have : r = (h.addVec x).1 := by
        cases r
        exact congrArg VecRef.mk hr
      rw [this, hself]
      exact hx.mono hg
    · have hnone : (h.addVec x).2.vec r = h.vec r := by
        simp only [vec, Heap.addVec]
        rw [Array.getElem?_eq_none (by simp; omega), Array.getElem?_eq_none (by omega)]
      rw [hnone]
      exact (hh.vecs r).mono hg
  · refine ⟨by simp [Has, Heap.addVec], trivial, .inr ?_⟩
    simp only [Heap.typeOf]
    rw [hself]

/-- A fresh collection is one of its type. -/
theorem fresh (hh : h.Conforms) (hclean : ty.clean = true) (hfresh : h.fresh? ty = some (v, h')) :
    h'.Conforms ∧ h.Grows h' ∧ h'.HasType v ty := by
  unfold fresh? at hfresh
  split at hfresh
  · cases hfresh
    exact hh.addVec (.empty (by simpa [Ty.clean] using hclean))
  · simp only [Option.map_eq_some_iff] at hfresh
    obtain ⟨t, ht, htable⟩ := hfresh
    cases htable
    obtain ⟨hconf, rfl⟩ := Table.Conforms.ofTy (h := h) ht hclean
    exact hh.addTable hconf

end Conforms

/-! ## Text -/

namespace Conforms

variable {h : Heap}

/-- All that can keep a value from having a text is its depth. -/
theorem render (hh : h.Conforms) : ∀ {depth : Nat} {v : Value} {s : Stop},
    h.render depth v = .error s → s = .exhausted
  | 0, v, s, hs => by
    cases v <;> cases hs <;> rfl
  | depth + 1, .table r, s, hs => by
    obtain ⟨entries, hentries⟩ := (hh.tables r).toList
    simp only [Heap.render, hentries, Except.mapError, bind, Except.bind] at hs
    split at hs
    · rename_i s' hparts
      cases hs
      obtain ⟨⟨index, v⟩, -, hv⟩ := mapM_error hparts
      cases v with
      | none => cases hv
      | some v =>
        dsimp only at hv
        split at hv
        · rename_i s' hv'
          cases hv
          exact render hh hv'
        · cases hv
    · cases hs
  | depth + 1, .vector r, s, hs => by
    simp only [Heap.render, bind, Except.bind] at hs
    split at hs
    · rename_i s' hparts
      cases hs
      obtain ⟨v, -, hv⟩ := mapM_error hparts
      cases v with
      | none => cases hv
      | some v => exact render hh hv
    · cases hs
  | _ + 1, .bool _, _, hs | _ + 1, .int _, _, hs | _ + 1, .count _, _, hs
  | _ + 1, .double _, _, hs | _ + 1, .str _, _, hs | _ + 1, .time _, _, hs
  | _ + 1, .interval _, _, hs => by cases hs

theorem text {s : Stop} (hh : h.Conforms) (hs : h.text v = .error s) : s = .exhausted :=
  hh.render hs

end Conforms

end Heap

end Vigil
