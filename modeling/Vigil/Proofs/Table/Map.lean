import Mathlib.Data.Finmap
import Mathlib.Data.Finset.Sort
import Vigil.Proofs.Key.Identity
import Vigil.Proofs.Table.Entries

/-!
# Vigil.Proofs.Table.Map — tables as finite maps

A table stands for a finite map from index tuples (`IndexMap`). A tuple is an
index after widening, with the two zeros of a double identified, so that
tuples are equal exactly when they address one entry. The map knows nothing of
bytes; they only show in the order in which it lists its entries.

* `Tuple.of?` — the tuple an index stands for, if it fits the declared types.
* `IndexMap.call`, `Table.call` — the same calls on a map and on a table.
* `Represents` — a table holds a map. Every call keeps it and answers alike
  (`Represents.call`), hence every sequence of calls does.
* `Table.refines_finite_map` — what follows for a table and its history.
-/

namespace Vigil

variable {types : List Ty}

/-! ## Tuples -/

/-- The index fits the declared types: there are as many components, and each
of them, widened, can be part of a key. -/
def FitsIndex (types : List Ty) (index : List Value) : Prop :=
  List.Forall₂ (fun v ty => (v.coerce ty).Fits ty) index types

instance (index : List Value) : Decidable (FitsIndex types index) :=
  inferInstanceAs (Decidable (List.Forall₂ _ _ _))

/-- What addresses an entry of a table with these index types. -/
structure Tuple (types : List Ty) where
  vals : List Value
  fits : List.Forall₂ Value.Fits vals types
  /-- There are no negative zeros. -/
  canonical : vals.map Value.canonical = vals
deriving DecidableEq

namespace Tuple

variable {index : List Value}

theorem ext {a b : Tuple types} (h : a.vals = b.vals) : a = b := by
  cases a
  cases b
  cases h
  rfl

/-- The components of an index as the table takes them. -/
def widened (types : List Ty) (index : List Value) : List Value :=
  List.zipWith (fun v ty => (v.coerce ty).canonical) index types

theorem fits_widened (h : FitsIndex types index) :
    List.Forall₂ Value.Fits (widened types index) types := by
  unfold FitsIndex at h
  induction h with
  | nil => exact .nil
  | cons hfits _ ih => exact .cons hfits.canonical ih

theorem canonical_widened (types : List Ty) (index : List Value) :
    (widened types index).map Value.canonical = widened types index := by
  simp [widened, List.map_zipWith]

/-- The tuple an index stands for. -/
def of? (types : List Ty) (index : List Value) : Option (Tuple types) :=
  if h : FitsIndex types index then
    some ⟨widened types index, fits_widened h, canonical_widened types index⟩
  else none

theorem of?_eq_none : of? types index = none ↔ ¬ FitsIndex types index := by
  unfold of?
  split <;> simp_all

theorem exists_of_fits (h : FitsIndex types index) : ∃ k, of? types index = some k :=
  ⟨_, dif_pos h⟩

/-- A tuple is an index that stands for itself. -/
theorem of?_vals (k : Tuple types) : of? types k.vals = some k := by
  obtain ⟨vals, hfits, hcanonical⟩ := k
  -- a value of the kind its type names is not widened
  have hkeep : ∀ {v : Value} {ty : Ty}, v.Fits ty → v.coerce ty = v := by
    intro v ty h
    have hkind := h.kind
    unfold Value.coerce
    split <;> first | rfl | cases hkind
  have hindex : FitsIndex types vals := by
    refine List.Forall₂.imp ?_ hfits
    intro v ty h
    rwa [hkeep h]
  have hwidened : widened types vals = vals.map Value.canonical := by
    clear hcanonical hindex
    induction hfits with
    | nil => rfl
    | cons h _ ih =>
      rw [List.map_cons, ← ih]
      simp [widened, hkeep h]
  rw [of?, dif_pos hindex, Option.some.injEq]
  exact ext (hwidened.trans hcanonical)

/-! ## Keys of tuples -/

/-- The bytes a table keeps for a tuple. -/
def key (k : Tuple types) : Key := (Key.encode? true types k.vals).getD []

theorem encode_vals (k : Tuple types) : Key.encode? true types k.vals = some k.key := by
  obtain ⟨bytes, hbytes⟩ := Key.exists_encode_iff.mpr k.fits
  rw [key, hbytes]
  rfl

theorem decode_key (k : Tuple types) : Key.decode types k.key = .ok (some k.vals) := by
  have h := Key.decode_encode k.encode_vals
  rwa [k.canonical] at h

theorem key_injective : Function.Injective (key : Tuple types → Key) := by
  intro a b h
  have hdecode := a.decode_key
  rw [h, b.decode_key] at hdecode
  simp only [Except.ok.injEq, Option.some.injEq] at hdecode
  exact ext hdecode.symm

/-- The key a table makes of an index is the one of its tuple. -/
theorem encode_widen (types : List Ty) (index : List Value) :
    Key.encode? true types (Table.widen types index) = (of? types index).map key := by
  have hwiden : ∀ {types index}, FitsIndex types index →
      (Table.widen types index).map Value.canonical = widened types index := by
    intro types index h
    unfold FitsIndex at h
    induction h with
    | nil => rfl
    | cons _ _ ih => simpa [Table.widen, widened] using ih
  have hfits : ∀ {types index},
      List.Forall₂ Value.Fits (Table.widen types index) types → FitsIndex types index := by
    intro types
    induction types with
    | nil =>
      intro index h
      simpa [Table.widen, FitsIndex] using h
    | cons ty types ih =>
      intro index h
      cases index with
      | nil => cases h
      | cons v index =>
        obtain ⟨hv, hrest⟩ := List.forall₂_cons.mp h
        exact .cons hv (ih hrest)
  by_cases h : FitsIndex types index
  · rw [← Key.encode?_canonical, hwiden h, of?, dif_pos h]
    exact encode_vals ⟨widened types index, fits_widened h, canonical_widened types index⟩
  · rw [of?_eq_none.mpr h, Option.map_none, Option.eq_none_iff_forall_ne_some]
    intro bytes hbytes
    exact h (hfits (Key.exists_encode_iff.mp ⟨bytes, hbytes⟩))

/-! ## Order of tuples -/

/-- Tuples are listed in the byte order of their keys. -/
def Le (a b : Tuple types) : Prop := (Key.order a.key b.key).isLE = true

instance : DecidableRel (Le : Tuple types → Tuple types → Prop) :=
  fun a b => inferInstanceAs (Decidable ((Key.order a.key b.key).isLE = true))

instance : IsTrans (Tuple types) Le := ⟨fun _ _ _ => Std.TransCmp.isLE_trans⟩

instance : Std.Antisymm (Le : Tuple types → Tuple types → Prop) where
  antisymm a b hab hba := by
    have heq : Key.order a.key b.key = .eq := Std.OrientedCmp.isLE_antisymm hab hba
    exact key_injective (Std.LawfulEqCmp.eq_of_compare heq)

instance : Std.Total (Le : Tuple types → Tuple types → Prop) where
  total a b := by
    unfold Le
    cases h : Key.order a.key b.key with
    | lt => exact .inl rfl
    | eq => exact .inl rfl
    | gt => exact .inr (by rw [Key.order_lt_of_gt h]; rfl)

end Tuple

/-! ## The map and its calls -/

/-- A finite map from index tuples; a set element carries no value. -/
abbrev IndexMap (types : List Ty) := Finmap fun _ : Tuple types => Option Value

namespace Table

/-- A call on a table. -/
inductive Call where
  | assign (index : List Value) (v : Option Value)
  | remove (index : List Value)
  | contains (index : List Value)
  | lookup (index : List Value)
  | size
  | entries

/-- What a call answers. -/
inductive Answer where
  | done
  | flag (b : Bool)
  | value (v : Option Value)
  | size (n : Nat)
  | entries (entries : List (List Value × Option Value))

/-- The index a call is about. -/
def Call.index? : Call → Option (List Value)
  | .assign index _ | .remove index | .contains index | .lookup index => some index
  | .size | .entries => none

/-- Answers of several calls, and the state after them. -/
def runCalls {σ : Type} (step : σ → Call → Except Stop Answer × σ) :
    σ → List Call → List (Except Stop Answer) × σ
  | s, [] => ([], s)
  | s, c :: rest =>
    let (answer, s) := step s c
    let (answers, s) := runCalls step s rest
    (answer :: answers, s)

/-- The error of an index that does not fit. -/
def misfit (ty : Ty) : Fault := .typeMismatch (.badIndex ty)

/-- A call on a table: its answer, and the table after it. -/
def call (t : Table) : Call → Except Stop Answer × Table
  | .assign index v =>
    match t.assign index v with
    | .ok t' => (.ok .done, t')
    | .error e => (.error (.fault e), t)
  | .remove index =>
    match t.remove index with
    | .ok (found, t') => (.ok (.flag found), t')
    | .error e => (.error (.fault e), t)
  | .contains index => (((t.contains index).map .flag).mapError .fault, t)
  | .lookup index => (((t.lookup index).map .value).mapError .fault, t)
  | .size => (.ok (.size t.size), t)
  | .entries => ((t.toList.map .entries).mapError .abort, t)

end Table

open Table (Call Answer runCalls misfit)

namespace IndexMap

/-- All entries, in the order of tuples. -/
def listing (m : IndexMap types) : List (List Value × Option Value) :=
  (m.keys.sort Tuple.Le).map fun k => (k.vals, (m.lookup k).join)

/-- What is done at the tuple of an index; an index that fits none is an error
and changes nothing. -/
def atIndex (ty : Ty) (m : IndexMap types) (index : List Value)
    (act : Tuple types → Answer × IndexMap types) : Except Stop Answer × IndexMap types :=
  match Tuple.of? types index with
  | some k => (.ok (act k).1, (act k).2)
  | none => (.error (.fault (misfit ty)), m)

/-- A call on the map that a table of type `ty` stands for. -/
def call (ty : Ty) (m : IndexMap types) : Call → Except Stop Answer × IndexMap types
  | .assign index v => m.atIndex ty index fun k => (.done, m.insert k v)
  | .remove index => m.atIndex ty index fun k => (.flag (m.lookup k).isSome, m.erase k)
  | .contains index => m.atIndex ty index fun k => (.flag (m.lookup k).isSome, m)
  | .lookup index => m.atIndex ty index fun k => (.value (m.lookup k).join, m)
  | .size => (.ok (.size m.keys.card), m)
  | .entries => (.ok (.entries m.listing), m)

end IndexMap

namespace Table

/-! ## The last write -/

/-- What a call writes under a tuple, if it does: an entry, or its absence. -/
def Call.write? (k : Tuple types) : Call → Option (Option (Option Value))
  | .assign index v => if Tuple.of? types index = some k then some (some v) else none
  | .remove index => if Tuple.of? types index = some k then some none else none
  | .contains _ | .lookup _ | .size | .entries => none

/-- The last entry assigned under a tuple, unless it was removed since. -/
def lastWrite (k : Tuple types) (calls : List Call) : Option (Option Value) :=
  (calls.reverse.findSome? (·.write? k)).join

end Table

open Table (lastWrite)

namespace IndexMap

theorem call_eq_misfit {ty : Ty} {m : IndexMap types} {c : Call} {index : List Value}
    (hindex : c.index? = some index) (hmisfit : ¬ FitsIndex types index) :
    m.call ty c = (.error (.fault (misfit ty)), m) := by
  cases c <;> cases hindex <;> simp only [call, atIndex, Tuple.of?_eq_none.mpr hmisfit]

theorem lookup_insert_eq (m : IndexMap types) (k k' : Tuple types) (v : Option Value) :
    (m.insert k' v).lookup k = if k = k' then some v else m.lookup k := by
  by_cases h : k = k'
  · subst h
    rw [Finmap.lookup_insert, if_pos rfl]
  · rw [Finmap.lookup_insert_of_ne _ h, if_neg h]

theorem lookup_erase_eq (m : IndexMap types) (k k' : Tuple types) :
    (m.erase k').lookup k = if k = k' then none else m.lookup k := by
  by_cases h : k = k'
  · subst h
    rw [Finmap.lookup_erase, if_pos rfl]
  · rw [Finmap.lookup_erase_ne h, if_neg h]

/-- A call changes a map where it writes. -/
theorem lookup_call (ty : Ty) (m : IndexMap types) (c : Call) (k : Tuple types) :
    (m.call ty c).2.lookup k = (c.write? k).getD (m.lookup k) := by
  cases c with
  | assign index v =>
    cases hk : Tuple.of? types index with
    | none => simp [call, atIndex, Call.write?, hk]
    | some k' =>
      simp only [call, atIndex, Call.write?, hk, lookup_insert_eq, Option.some.injEq, eq_comm]
      split_ifs <;> rfl
  | remove index =>
    cases hk : Tuple.of? types index with
    | none => simp [call, atIndex, Call.write?, hk]
    | some k' =>
      simp only [call, atIndex, Call.write?, hk, lookup_erase_eq, Option.some.injEq, eq_comm]
      split_ifs <;> rfl
  | contains index => cases hk : Tuple.of? types index <;> simp [call, atIndex, Call.write?, hk]
  | lookup index => cases hk : Tuple.of? types index <;> simp [call, atIndex, Call.write?, hk]
  | size => rfl
  | entries => rfl

/-- After a history of calls a map holds what was written last. -/
theorem lookup_runCalls (ty : Ty) (calls : List Call) (k : Tuple types) :
    (runCalls (call ty) (∅ : IndexMap types) calls).2.lookup k = lastWrite k calls := by
  -- from any map, what the history does not write stays
  have hrun : ∀ m : IndexMap types, (runCalls (call ty) m calls).2.lookup k =
      (calls.reverse.findSome? (·.write? k)).getD (m.lookup k) := by
    induction calls with
    | nil => intro m; rfl
    | cons c rest ih =>
      intro m
      rw [runCalls, ih, lookup_call, List.reverse_cons, List.findSome?_append]
      cases rest.reverse.findSome? (·.write? k) <;> simp
  rw [hrun, lastWrite, Finmap.lookup_empty]
  cases calls.reverse.findSome? (·.write? k) <;> rfl

end IndexMap

/-! ## Tables that hold a map -/

namespace Table

/-- A table of type `ty` holds a map. -/
structure Represents (ty : Ty) (t : Table) (m : IndexMap types) : Prop where
  index : t.index = types
  ty_eq : t.ty = ty
  sorted : Sorted t.entries
  keys : ∀ e ∈ t.entries, ∃ k : Tuple types, e.1 = k.key
  find : ∀ k : Tuple types, find? k.key t.entries = m.lookup k

variable {ty : Ty} {t : Table} {m : IndexMap types}

namespace Represents

variable {index : List Value}

theorem empty {t₀ : Table} (h : ofTy? ty = some t₀) :
    t₀.Represents ty (∅ : IndexMap t₀.index) := by
  cases ty <;> cases h <;>
    exact ⟨rfl, rfl, .nil, fun _ he => (List.not_mem_nil he).elim, fun _ => rfl⟩

/-- The key of an index is that of the tuple it stands for. -/
theorem key_eq (h : t.Represents ty m) {k : Tuple types} (hk : Tuple.of? types index = some k) :
    t.key index = .ok k.key := by
  unfold Table.key
  rw [h.index, Tuple.encode_widen, hk]
  rfl

theorem key_eq_misfit (h : t.Represents ty m) (hmisfit : ¬ FitsIndex types index) :
    t.key index = .error (misfit ty) := by
  unfold Table.key
  rw [h.index, h.ty_eq, Tuple.encode_widen, Tuple.of?_eq_none.mpr hmisfit]
  rfl

theorem insert (h : t.Represents ty m) (k : Tuple types) (v : Option Value) :
    Represents ty { t with entries := insertKey k.key v t.entries } (m.insert k v) where
  index := h.index
  ty_eq := h.ty_eq
  sorted := h.sorted.insertKey k.key v
  keys e he := by
    rcases mem_insertKey he with rfl | he
    · exact ⟨k, rfl⟩
    · exact h.keys e he
  find k' := by
    rw [find?_insertKey, h.find, IndexMap.lookup_insert_eq]
    simp only [Tuple.key_injective.eq_iff]

theorem erase (h : t.Represents ty m) (k : Tuple types) :
    Represents ty { t with entries := eraseKey k.key t.entries } (m.erase k) where
  index := h.index
  ty_eq := h.ty_eq
  sorted := h.sorted.eraseKey k.key
  keys e he := h.keys e (mem_of_mem_eraseKey he)
  find k' := by
    rw [h.sorted.find?_eraseKey, h.find, IndexMap.lookup_erase_eq]
    simp only [Tuple.key_injective.eq_iff]

/-- The entries are told by the map: they are its tuples in order, each with
its value. -/
theorem entries_eq (h : t.Represents ty m) :
    t.entries = (m.keys.sort Tuple.Le).map fun k => (k.key, (m.lookup k).join) := by
  have hsorted : Sorted ((m.keys.sort Tuple.Le).map fun k => (k.key, (m.lookup k).join)) := by
    refine List.pairwise_map.mpr ?_
    have hle := m.keys.pairwise_sort Tuple.Le
    have hne := m.keys.sort_nodup Tuple.Le
    refine (hle.and hne).imp ?_
    rintro a b ⟨hle, hne⟩
    -- tuples that differ have keys that do
    rcases Ordering.isLE_iff_eq_lt_or_eq_eq.mp hle with hlt | heq
    · exact hlt
    · exact absurd (Tuple.key_injective (Std.LawfulEqCmp.eq_of_compare heq)) hne
  refine h.sorted.ext hsorted fun e => ?_
  rw [List.mem_map]
  constructor
  · intro he
    obtain ⟨k, hk⟩ := h.keys e he
    obtain ⟨bytes, v⟩ := e
    subst hk
    have hlookup : m.lookup k = some v := (h.find k).symm.trans (h.sorted.find?_of_mem he)
    have hmem : k ∈ m.keys := Finmap.mem_keys.mpr (Finmap.mem_of_lookup_eq_some hlookup)
    exact ⟨k, (Finset.mem_sort Tuple.Le).mpr hmem, by rw [hlookup]; rfl⟩
  · rintro ⟨k, hk, rfl⟩
    have hmem : k ∈ m := Finmap.mem_keys.mp ((Finset.mem_sort Tuple.Le).mp hk)
    obtain ⟨v, hv⟩ := Finmap.mem_iff.mp hmem
    rw [hv]
    exact mem_of_find? ((h.find k).trans hv)

theorem size_eq (h : t.Represents ty m) : t.size = m.keys.card := by
  rw [Table.size, h.entries_eq, List.length_map, Finset.length_sort]

/-- Iteration gives the entries of the map, and no key fails to read back. -/
theorem toList_eq (h : t.Represents ty m) : t.toList = .ok m.listing := by
  have hindex : ∀ k : Tuple types, t.indexOf k.key = .ok k.vals := by
    intro k
    unfold indexOf
    rw [h.index, k.decode_key]
    rfl
  have hmap : ∀ ks : List (Tuple types),
      (ks.map fun k => (k.key, (m.lookup k).join)).mapM
        (fun (e : Key × Option Value) => do pure (← t.indexOf e.1, e.2)) =
      Except.ok (ks.map fun k => (k.vals, (m.lookup k).join)) := by
    intro ks
    induction ks with
    | nil => rfl
    | cons k ks ih =>
      rw [List.map_cons, List.mapM_cons, hindex, ih]
      rfl
  unfold toList
  rw [h.entries_eq]
  exact hmap _

theorem contains_eq (h : t.Represents ty m) {k : Tuple types}
    (hk : Tuple.of? types index = some k) : t.contains index = .ok (m.lookup k).isSome := by
  unfold contains
  rw [h.key_eq hk, ← h.find]
  rfl

theorem lookup_eq (h : t.Represents ty m) {k : Tuple types} (hk : Tuple.of? types index = some k) :
    t.lookup index = .ok (m.lookup k).join := by
  unfold lookup
  rw [h.key_eq hk, ← h.find]
  rfl

/-- A call at an index that fits no tuple is refused and changes nothing. -/
theorem call_eq_misfit (h : t.Represents ty m) {c : Call} (hindex : c.index? = some index)
    (hmisfit : ¬ FitsIndex types index) :
    t.call c = (.error (.fault (misfit ty)), t) := by
  have hkey := h.key_eq_misfit hmisfit
  cases c <;> cases hindex <;>
    · simp only [Table.call, assign, remove, contains, lookup, hkey]
      rfl

/-- A table answers every call as its map does, and holds the changed map
afterwards. -/
theorem call (h : t.Represents ty m) (c : Call) :
    (t.call c).1 = (m.call ty c).1 ∧ (t.call c).2.Represents ty (m.call ty c).2 := by
  by_cases hfits : ∀ index, c.index? = some index → FitsIndex types index
  · cases c with
    | assign index v =>
      obtain ⟨k, hk⟩ := Tuple.exists_of_fits (hfits index rfl)
      simp only [Table.call, assign, h.key_eq hk, IndexMap.call, IndexMap.atIndex, hk]
      exact ⟨rfl, h.insert k v⟩
    | remove index =>
      obtain ⟨k, hk⟩ := Tuple.exists_of_fits (hfits index rfl)
      simp only [Table.call, remove, h.key_eq hk, IndexMap.call, IndexMap.atIndex, hk, ← h.find]
      exact ⟨rfl, h.erase k⟩
    | contains index =>
      obtain ⟨k, hk⟩ := Tuple.exists_of_fits (hfits index rfl)
      simp only [Table.call, h.contains_eq hk, IndexMap.call, IndexMap.atIndex, hk]
      exact ⟨rfl, h⟩
    | lookup index =>
      obtain ⟨k, hk⟩ := Tuple.exists_of_fits (hfits index rfl)
      simp only [Table.call, h.lookup_eq hk, IndexMap.call, IndexMap.atIndex, hk]
      exact ⟨rfl, h⟩
    | size => exact ⟨by rw [Table.call, h.size_eq]; rfl, h⟩
    | entries => exact ⟨by rw [Table.call, h.toList_eq]; rfl, h⟩
  · simp only [not_forall] at hfits
    obtain ⟨index, hindex, hmisfit⟩ := hfits
    rw [h.call_eq_misfit hindex hmisfit, IndexMap.call_eq_misfit hindex hmisfit]
    exact ⟨rfl, h⟩

theorem runCalls (h : t.Represents ty m) (calls : List Call) :
    (Table.runCalls Table.call t calls).1 = (Table.runCalls (IndexMap.call ty) m calls).1 ∧
      (Table.runCalls Table.call t calls).2.Represents ty
        (Table.runCalls (IndexMap.call ty) m calls).2 := by
  induction calls generalizing t m with
  | nil => exact ⟨rfl, h⟩
  | cons c rest ih =>
    obtain ⟨hanswer, hafter⟩ := h.call c
    obtain ⟨hanswers, hend⟩ := ih hafter
    simp only [Table.runCalls]
    exact ⟨by rw [hanswer, hanswers], hend⟩

/-- What iteration gives is found again. -/
theorem lookup_of_mem_listing (h : t.Represents ty m) {p : List Value × Option Value}
    (hp : p ∈ m.listing) : t.contains p.1 = .ok true ∧ t.lookup p.1 = .ok p.2 := by
  obtain ⟨k, hk, rfl⟩ := List.mem_map.mp hp
  have hmem : k ∈ m := Finmap.mem_keys.mp ((Finset.mem_sort Tuple.Le).mp hk)
  have hsome : (m.lookup k).isSome := Finmap.lookup_isSome.mpr hmem
  have hself := Tuple.of?_vals k
  exact ⟨by rw [h.contains_eq hself, hsome], h.lookup_eq hself⟩

/-- Tables that answer alike hold the same map. -/
theorem map_eq {t' : Table} {m' : IndexMap types} (h : t.Represents ty m)
    (h' : t'.Represents ty m')
    (hsame : ∀ index, t'.contains index = t.contains index ∧ t'.lookup index = t.lookup index) :
    m' = m := by
  refine Finmap.ext_lookup fun k => ?_
  have hself := Tuple.of?_vals k
  obtain ⟨hcontains, hlookup⟩ := hsame k.vals
  rw [h'.contains_eq hself, h.contains_eq hself, Except.ok.injEq] at hcontains
  rw [h'.lookup_eq hself, h.lookup_eq hself, Except.ok.injEq] at hlookup
  -- a set element carries no value, so the second answer alone would not do
  cases hm' : m'.lookup k <;> cases hm : m.lookup k <;> simp_all

end Represents

/-- A table is a finite map from index tuples. Over any history of calls on an
empty table:

* it answers every call as the map does;
* an index finds what was assigned last under its tuple and not removed since;
* an index of another length, with a component of the wrong type, one that is
  not atomic or a string of `2 ^ 32` bytes or more is refused, and the table
  stays as it is;
* the size is the number of tuples that hold an entry;
* iteration succeeds, and finds each of its entries again;
* any other history that leads to the same answers leads to the same order. -/
theorem refines_finite_map {t₀ : Table} (h : ofTy? ty = some t₀) (calls : List Call) :
    let t := (Table.runCalls call t₀ calls).2
    (Table.runCalls call t₀ calls).1 =
        (Table.runCalls (IndexMap.call ty) (∅ : IndexMap t₀.index) calls).1 ∧
      (∀ index k, Tuple.of? t₀.index index = some k →
        t.contains index = .ok (lastWrite k calls).isSome ∧
          t.lookup index = .ok (lastWrite k calls).join) ∧
      (∀ index c, ¬ FitsIndex t₀.index index → c.index? = some index →
        t.call c = (.error (.fault (misfit ty)), t)) ∧
      (∃ keys : Finset (Tuple t₀.index),
        (∀ k, k ∈ keys ↔ (lastWrite k calls).isSome) ∧ t.size = keys.card) ∧
      (∃ entries, t.toList = .ok entries ∧
        ∀ p ∈ entries, t.contains p.1 = .ok true ∧ t.lookup p.1 = .ok p.2) ∧
      ∀ calls', let t' := (Table.runCalls call t₀ calls').2
        (∀ index, t'.contains index = t.contains index ∧ t'.lookup index = t.lookup index) →
          t'.toList = t.toList := by
  intro t
  obtain ⟨hanswers, hrep⟩ := (Represents.empty h).runCalls calls
  have hlast : ∀ k : Tuple t₀.index, _ = lastWrite k calls := IndexMap.lookup_runCalls ty calls
  refine ⟨hanswers, ?_, ?_, ?_, ?_, ?_⟩
  · intro index k hk
    rw [← hlast]
    exact ⟨hrep.contains_eq hk, hrep.lookup_eq hk⟩
  · intro index c hmisfit hindex
    exact hrep.call_eq_misfit hindex hmisfit
  · refine ⟨_, fun k => ?_, hrep.size_eq⟩
    rw [← hlast, Finmap.mem_keys, Finmap.lookup_isSome]
  · exact ⟨_, hrep.toList_eq, fun p hp => hrep.lookup_of_mem_listing hp⟩
  · intro calls' t' hsame
    have hrep' := ((Represents.empty h).runCalls calls').2
    rw [hrep'.toList_eq, hrep.map_eq hrep' hsame, hrep.toList_eq]

/-- An int and a negative zero find the same entry of a `table[double, string]`,
and a lone string fits no index of it. -/
theorem refines_finite_map_of_zeros :
    ∃ (t₀ : Table) (calls : List Call) (k : Tuple t₀.index),
      ofTy? (.table [.double, .string] .count) = some t₀ ∧
      calls = [.assign [.int 0, .str [0x61]] (some (.count 1)),
        .assign [.double ⟨0x8000000000000000⟩, .str [0x61]] (some (.count 2)),
        .assign [.str [0x61]] (some (.count 3))] ∧
      Tuple.of? t₀.index [.int 0, .str [0x61]] = some k ∧
      lastWrite k calls = some (some (.count 2)) ∧
      (Table.runCalls call t₀ calls).2.lookup [.int 0, .str [0x61]] = .ok (some (.count 2)) ∧
      ((Table.runCalls call t₀ calls).2.call (.remove [.str [0x61]])).2 =
        (Table.runCalls call t₀ calls).2 := by
  let t₀ : Table := ⟨[.double, .string], some .count, [], 0⟩
  let calls : List Call := [.assign [.int 0, .str [0x61]] (some (.count 1)),
    .assign [.double ⟨0x8000000000000000⟩, .str [0x61]] (some (.count 2)),
    .assign [.str [0x61]] (some (.count 3))]
  let k : Tuple t₀.index := ⟨[.double ⟨0⟩, .str [0x61]], by decide +kernel, by decide +kernel⟩
  have hty : ofTy? (.table [.double, .string] .count) = some t₀ := rfl
  have hk : Tuple.of? t₀.index [.int 0, .str [0x61]] = some k := by decide +kernel
  have hlast : lastWrite k calls = some (some (.count 2)) := by decide +kernel
  have hmisfit : ¬ FitsIndex t₀.index [.str [0x61]] := by decide +kernel
  obtain ⟨-, hwritten, hrefused, -⟩ := refines_finite_map hty calls
  have hfind := (hwritten _ k hk).2
  rw [hlast] at hfind
  have hkept := congrArg Prod.snd (hrefused _ (.remove [.str [0x61]]) hmisfit rfl)
  exact ⟨t₀, calls, k, hty, rfl, hk, hlast, hfind, hkept⟩

end Table

end Vigil
