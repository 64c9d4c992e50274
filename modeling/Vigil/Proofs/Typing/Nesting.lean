import Mathlib.Data.Finset.Card
import Mathlib.Data.Finset.Image
import Mathlib.Logic.Relation
import Vigil.Proofs.Typing.Soundness

/-!
# Vigil.Proofs.Typing.Nesting — collections inside collections

A collection that is not one of `any` holds values of a smaller type than its
own, so along a chain of such collections the type shrinks. A collection that
contains itself therefore does so through a collection of `any`
(`Heap.Conforms.exists_any_of_cycle`), and a type without `any` rules it out.
Rendering descends along what collections hold: a value has a text exactly if
it leads to no collection that contains itself (`Heap.Conforms.text_iff`).
-/

namespace Vigil

open Relation (TransGen ReflTransGen)

/-- Neither the type is `any` nor what its collections hold, at any depth. -/
def Ty.concrete : Ty → Bool
  | .any => false
  | .table _ y | .vector y => y.concrete
  | _ => true

theorem Ty.sizeOf_yield {t y : Ty} (h : t.yield? = some y) : sizeOf y < sizeOf t := by
  cases t <;> cases h <;> simp

theorem Ty.concrete_yield {t y : Ty} (ht : t.concrete = true) (h : t.yield? = some y) :
    y.concrete = true := by
  cases t <;> cases h <;> exact ht

/-- A `mapM` succeeds when each of its calls does. -/
theorem exists_mapM_iff {α β ε : Type} {f : α → Except ε β} {l : List α} :
    (∃ ys, l.mapM f = .ok ys) ↔ ∀ x ∈ l, ∃ y, f x = .ok y := by
  induction l with
  | nil => simp [pure, Except.pure]
  | cons x l ih =>
    rw [List.forall_mem_cons, ← ih, List.mapM_cons]
    cases f x with
    | error e => simp [bind, Except.bind]
    | ok y => cases l.mapM f <;> simp [bind, Except.bind, pure, Except.pure]

/-- What a `mapM` leaves unchanged in each element, it leaves in the list. -/
theorem filterMap_of_mapM {α β γ ε : Type} {f : α → Except ε β} {g : α → Option γ}
    {g' : β → Option γ} (hf : ∀ x y, f x = .ok y → g' y = g x) {l : List α} {ys : List β}
    (h : l.mapM f = .ok ys) : ys.filterMap g' = l.filterMap g := by
  induction l generalizing ys with
  | nil =>
    cases h
    rfl
  | cons x l ih =>
    rw [List.mapM_cons] at h
    cases hx : f x with
    | error e => simp [hx, bind, Except.bind] at h
    | ok y =>
      cases hl : l.mapM f with
      | error e => simp [hx, hl, bind, Except.bind] at h
      | ok rest =>
        simp only [hx, hl, bind, Except.bind, pure, Except.pure, Except.ok.injEq] at h
        rw [← h, List.filterMap_cons, List.filterMap_cons, hf x y hx, ih hl]

/-- Reading the keys back leaves the values as they are. -/
theorem Table.values_of_toList {t : Table} {l : List (List Value × Option Value)}
    (h : t.toList = .ok l) : l.filterMap Prod.snd = t.entries.filterMap Prod.snd := by
  refine filterMap_of_mapM (fun e y hy => ?_) h
  cases hindex : t.indexOf e.1 with
  | error a => simp [hindex, bind, Except.bind] at hy
  | ok index =>
    simp only [hindex, bind, Except.bind, pure, Except.pure, Except.ok.injEq] at hy
    rw [← hy]

namespace Heap

/-- The values stored in a collection. -/
def held (h : Heap) : Value → List Value
  | .table r => (h.table r).entries.filterMap Prod.snd
  | .vector r => (h.vec r).slots.toList.filterMap id
  | _ => []

/-- The collection holds the value. -/
def Holds (h : Heap) (c v : Value) : Prop := v ∈ h.held c

instance (h : Heap) (c v : Value) : Decidable (h.Holds c v) :=
  inferInstanceAs (Decidable (v ∈ h.held c))

/-- All collections there are. -/
def collections (h : Heap) : Finset Value :=
  (Finset.range h.tables.size).image (.table ⟨·⟩) ∪ (Finset.range h.vecs.size).image (.vector ⟨·⟩)

theorem card_collections (h : Heap) : h.collections.card ≤ h.tables.size + h.vecs.size := by
  refine (Finset.card_union_le _ _).trans (Nat.add_le_add ?_ ?_)
  all_goals exact Finset.card_image_le.trans (Finset.card_range _).le

variable {h : Heap} {c v : Value}

/-- Nothing but a collection of the heap holds anything. -/
theorem Holds.mem_collections (hc : h.Holds c v) : c ∈ h.collections := by
  simp only [collections, Finset.mem_union, Finset.mem_image, Finset.mem_range]
  cases c with
  | table r =>
    refine .inl ⟨r.idx, ?_, rfl⟩
    by_contra hr
    have hempty : h.table r = default := by simp [table, Nat.not_lt.mp hr]
    simp only [Holds, held, hempty] at hc
    cases hc
  | vector r =>
    refine .inr ⟨r.idx, ?_, rfl⟩
    by_contra hr
    have hempty : h.vec r = default := by simp [vec, Nat.not_lt.mp hr]
    simp only [Holds, held, hempty] at hc
    cases hc
  | _ => cases hc

/-- The value has a text that goes no deeper. -/
def Shown (h : Heap) (depth : Nat) (v : Value) : Prop := ∃ s, h.render depth v = .ok s

namespace Conforms

variable {n : Nat}

/-- A collection holds values of the type it yields. -/
theorem hasType_of_holds (hh : h.Conforms) (hc : h.Holds c v) :
    ∃ y, (h.typeOf c).yield? = some y ∧ h.HasType v y := by
  cases c with
  | table r =>
    obtain ⟨e, he, hv⟩ := List.mem_filterMap.mp hc
    have hvalue := (hh.tables r).values e he
    simp only [typeOf, Table.ty]
    rw [hv] at hvalue
    cases hy : (h.table r).yield with
    | none => simp [Carries, hy] at hvalue
    | some y =>
      rw [hy] at hvalue
      exact ⟨y, rfl, hvalue⟩
  | vector r =>
    obtain ⟨slot, hslot, rfl⟩ := List.mem_filterMap.mp hc
    obtain ⟨i, hi⟩ := List.mem_iff_getElem?.mp hslot
    refine ⟨_, rfl, (hh.vecs r).values i v ?_⟩
    simp only [Array.getElem?_toList] at hi
    simp [Vec.lookup, Slots.get, hi]
  | _ => cases hc

/-! ## Cycles -/

/-- Types shrink on the way through collections that are not of `any`. -/
theorem sizeOf_lt_of_path (hh : h.Conforms) {a b : Value} (hpath : TransGen h.Holds a b)
    (hon : ∀ x, ReflTransGen h.Holds a x → ReflTransGen h.Holds x b →
      (h.typeOf x).yield? ≠ some .any) : sizeOf (h.typeOf b) < sizeOf (h.typeOf a) := by
  -- one edge of the path
  have hedge : ∀ {x y}, h.Holds x y → (h.typeOf x).yield? ≠ some .any →
      sizeOf (h.typeOf y) < sizeOf (h.typeOf x) := by
    intro x y hxy hx
    obtain ⟨ty, hyield, htype⟩ := hh.hasType_of_holds hxy
    rw [htype.typeOf_eq fun hany => hx (hany ▸ hyield)]
    exact Ty.sizeOf_yield hyield
  induction hpath with
  | single hab => exact hedge hab (hon a .refl (.single hab))
  | tail hax hxb ih =>
    refine (hedge hxb (hon _ hax.to_reflTransGen (.single hxb))).trans (ih ?_)
    exact fun y hay hyx => hon y hay (hyx.tail hxb)

/-- A collection that contains itself does so through one of `any`. -/
theorem exists_any_of_cycle (hh : h.Conforms) (hcycle : TransGen h.Holds c c) :
    ∃ a, ReflTransGen h.Holds c a ∧ ReflTransGen h.Holds a c ∧
      (h.typeOf a).yield? = some .any := by
  by_contra hnone
  refine Nat.lt_irrefl _ (hh.sizeOf_lt_of_path hcycle fun x hcx hxc hany => hnone ?_)
  exact ⟨x, hcx, hxc, hany⟩

/-- From a value of a concrete type one comes to such values only. -/
theorem concrete_of_reach (hh : h.Conforms) (hv : (h.typeOf v).concrete = true)
    (hreach : ReflTransGen h.Holds v c) : (h.typeOf c).concrete = true := by
  induction hreach with
  | refl => exact hv
  | tail _ hxc ih =>
    obtain ⟨y, hyield, htype⟩ := hh.hasType_of_holds hxc
    have hy := Ty.concrete_yield ih hyield
    rwa [htype.typeOf_eq (by rintro rfl; cases hy)]

/-! ## Text -/

/-- A text made of parts is there when what the parts show has a text. -/
theorem shown_of_parts {α : Type} {f : α → Except Stop String} (slot : α → Option Value)
    (hf : ∀ x, (∃ s, f x = .ok s) ↔ ∀ u, slot x = some u → h.Shown n u)
    (join : List String → String) (l : List α) :
    (∃ s, (l.mapM f >>= fun parts => pure (join parts)) = .ok s) ↔
      ∀ u ∈ l.filterMap slot, h.Shown n u := by
  have hparts : (∃ s, (l.mapM f >>= fun parts => pure (join parts)) = .ok s) ↔
      ∃ parts, l.mapM f = .ok parts := by
    cases l.mapM f <;> simp [bind, Except.bind, pure, Except.pure]
  rw [hparts, exists_mapM_iff]
  simp only [hf, List.mem_filterMap]
  constructor
  · rintro hall u ⟨x, hx, hu⟩
    exact hall x hx u hu
  · exact fun hall x hx u hu => hall u ⟨x, hx, hu⟩

/-- One level of a text: what a collection holds is shown one level less deep. -/
theorem shown_succ (hh : h.Conforms) : h.Shown (n + 1) v ↔ ∀ u, h.Holds v u → h.Shown n u := by
  cases v with
  | table r =>
    obtain ⟨entries, hentries⟩ := (hh.tables r).toList
    simp only [Shown, Heap.render, hentries, Holds, held, ← Table.values_of_toList hentries]
    refine shown_of_parts Prod.snd (fun x => ?_) _ entries
    rcases x with ⟨index, _ | u⟩
    · simp [pure, Except.pure]
    · simp only [Option.some.injEq, forall_eq', Shown]
      cases h.render n u <;> simp [bind, Except.bind, pure, Except.pure]
  | vector r =>
    refine shown_of_parts id (fun x => ?_) _ (h.vec r).slots.toList
    cases x with
    | none => simp [pure, Except.pure]
    | some u => simp [Shown]
  | _ =>
    constructor
    · intro _ u hu
      cases hu
    · exact fun _ => ⟨_, rfl⟩

/-- A collection is shown deeper than what it holds. -/
theorem shown_lt_of_path (hh : h.Conforms) {u : Value} (hpath : TransGen h.Holds v u)
    (hv : h.Shown n v) : ∃ m, m < n ∧ h.Shown m u := by
  have hedge : ∀ {x y n}, h.Holds x y → h.Shown n x → ∃ m, m < n ∧ h.Shown m y := by
    intro x y n hxy hx
    cases n with
    | zero =>
      obtain ⟨s, hs⟩ := hx
      cases x <;> first | cases hs; done | cases hxy
    | succ n => exact ⟨n, Nat.lt_succ_self n, hh.shown_succ.mp hx y hxy⟩
  induction hpath with
  | single hvu => exact hedge hvu hv
  | tail _ hxu ih =>
    obtain ⟨m, hm, hx⟩ := ih
    obtain ⟨k, hk, hu⟩ := hedge hxu hx
    exact ⟨k, hk.trans hm, hu⟩

theorem not_shown_of_cycle (hh : h.Conforms) (hcycle : TransGen h.Holds c c) (n : Nat) :
    ¬ h.Shown n c := by
  induction n using Nat.strong_induction_on with
  | _ n ih =>
    intro hc
    obtain ⟨m, hm, hc'⟩ := hh.shown_lt_of_path hcycle hc
    exact ih m hm hc'

/-- Where nothing contains itself, a text is no deeper than there are
collections left to come to. -/
theorem shown_of_card (hh : h.Conforms) {left : Finset Value} (hcard : left.card ≤ n)
    (hacyclic : ∀ c, ReflTransGen h.Holds v c → ¬ TransGen h.Holds c c)
    (hleft : ∀ c u, ReflTransGen h.Holds v c → h.Holds c u → c ∈ left) : h.Shown (n + 1) v := by
  induction n generalizing left v with
  | zero =>
    refine hh.shown_succ.mpr fun u hu => ?_
    have hv := hleft v u .refl hu
    simp [Finset.card_eq_zero.mp (Nat.le_zero.mp hcard)] at hv
  | succ n ih =>
    refine hh.shown_succ.mpr fun u hu => ?_
    have hv := hleft v u .refl hu
    -- the way on does not come back to the value
    have herase : (left.erase v).card ≤ n := by
      have := Finset.card_erase_lt_of_mem hv
      omega
    refine ih herase (fun c hc => hacyclic c (hc.head hu)) fun c x hc hx => ?_
    refine Finset.mem_erase.mpr ⟨?_, hleft c x (hc.head hu) hx⟩
    rintro rfl
    exact hacyclic c .refl (.head' hu hc)

/-- A value has a text unless it leads to a collection that contains itself. -/
theorem text_iff (hh : h.Conforms) :
    (∃ s, h.text v = .ok s) ↔ ∀ c, ReflTransGen h.Holds v c → ¬ TransGen h.Holds c c := by
  constructor
  · intro hv c hreach hcycle
    rcases Relation.reflTransGen_iff_eq_or_transGen.mp hreach with rfl | hpath
    · exact hh.not_shown_of_cycle hcycle _ hv
    · obtain ⟨m, -, hc⟩ := hh.shown_lt_of_path hpath hv
      exact hh.not_shown_of_cycle hcycle m hc
  · intro hacyclic
    exact hh.shown_of_card h.card_collections hacyclic fun c u _ hc => hc.mem_collections

/-- A value of a concrete type has a text. -/
theorem text_of_concrete (hh : h.Conforms) (hv : (h.typeOf v).concrete = true) :
    ∃ s, h.text v = .ok s := by
  refine hh.text_iff.mpr fun c hreach hcycle => ?_
  obtain ⟨a, hca, -, hany⟩ := hh.exists_any_of_cycle hcycle
  cases Ty.concrete_yield (hh.concrete_of_reach hv (hreach.trans hca)) hany

end Conforms

end Heap

/-- An event whose arguments have texts has one. -/
theorem Event.exists_text {h : Heap} {e : Event} (hargs : ∀ v ∈ e.args, ∃ s, h.text v = .ok s) :
    ∃ s, e.text h = .ok s := by
  obtain ⟨parts, hparts⟩ := exists_mapM_iff.mpr hargs
  exact ⟨_, by simp only [Event.text, hparts, bind, Except.bind]; rfl⟩

/-! ## Units -/

namespace Script

/-- **Nesting.** Whatever a plain unit that loads has done, in its runs and in
the passes over its triggers, a collection that contains itself does so
through a collection of `any`. A value has a text exactly if it leads to no
collection that contains itself, so every value of a concrete type has one, and
so has every event with such arguments. -/
theorem cycles_pass_any {u : Doc.Unit} {firstStmt : StmtId} {s : Script}
    (hload : load u firstStmt = .ok s) (hplain : u.plain = true) {Γ : FrameRef → Layout}
    {w w' : World} (hw : w.Conforms Γ) (hleads : s.Leads Γ w w') :
    (∀ c, TransGen w'.heap.Holds c c → ∃ a, ReflTransGen w'.heap.Holds c a ∧
      ReflTransGen w'.heap.Holds a c ∧ (w'.heap.typeOf a).yield? = some .any) ∧
    (∀ v, (∃ text, w'.heap.text v = .ok text) ↔
      ∀ c, ReflTransGen w'.heap.Holds v c → ¬ TransGen w'.heap.Holds c c) ∧
    (∀ v, (w'.heap.typeOf v).concrete = true → ∃ text, w'.heap.text v = .ok text) ∧
    ∀ e : Event, (∀ v ∈ e.args, (w'.heap.typeOf v).concrete = true) →
      ∃ text, e.text w'.heap = .ok text := by
  obtain ⟨L, hL, hbody, -⟩ := typed_of_load hload hplain
  have hheap := (hleads.conforms hL hbody hw).heap
  refine ⟨fun c => hheap.exists_any_of_cycle, fun v => hheap.text_iff,
    fun v => hheap.text_of_concrete, fun e hargs => ?_⟩
  exact Event.exists_text fun v hv => hheap.text_of_concrete (hargs v hv)

/-- A unit of one body, with the given locals. -/
def knot (locals : List Doc.LocalDecl) (body : List Doc.Stmt) : Doc.Unit where
  name := "knot"
  kind := .toplevel
  locals := locals
  body := .list body

/-- The assignment of a variable to the first position of another. -/
def knotPut (into value : String) : Doc.Stmt :=
  .expr (.assign (.index (.name into) [.const (.count 0)]) (.name value))

/-- The world a unit leaves behind, run once in a frame of its own. -/
def knotted (u : Doc.Unit) : World :=
  ((HostOp.run (build u 0) ⟨0⟩).perform 9).leaves
    ((World.start default default).addFrame (build u 0).frameSize none).2

/-- A vector in a vector: its run shows it, and it can be shown ever after. -/
theorem cycles_pass_any_nested :
    let u := knot [⟨"inner", .vector .count, none, .unknown⟩,
      ⟨"outer", .vector (.vector .count), none, .unknown⟩]
      [knotPut "outer" "inner", .print [.name "outer"]]
    u.plain = true ∧ load u 0 = .ok (build u 0) ∧ (knotted u).output = #["[[]]"] ∧
      (knotted u).heap.Holds (.vector ⟨1⟩) (.vector ⟨0⟩) ∧
      ¬ TransGen (knotted u).heap.Holds (.vector ⟨1⟩) (.vector ⟨1⟩) := by
  intro u
  have hplain : u.plain = true := by decide +kernel
  have hload : load u 0 = .ok (build u 0) := load_eq_ok_iff.mpr ⟨rfl, by decide +kernel⟩
  obtain ⟨L, hL, -⟩ := typed_of_load hload hplain
  have hw := (World.evolves_addFrame (build u 0).frameSize none
    (World.conforms_start (fun _ => L) default default)).conforms
  obtain ⟨-, htext, hconcrete, -⟩ := cycles_pass_any hload hplain hw
    (.single ⟨.run (build u 0) ⟨0⟩, 9, ⟨rfl, hL⟩, rfl⟩)
  refine ⟨hplain, hload, by decide +kernel, by decide +kernel, ?_⟩
  exact (htext _).mp (hconcrete (.vector ⟨1⟩) (by decide +kernel)) _ .refl

/-- A vector of `any` may be put into itself, and with a variable of type
`error` in between any vector may: then it has no text. -/
theorem vector_contains_itself :
    let ofAny := knot [⟨"v", .vector .any, none, .unknown⟩] [knotPut "v" "v"]
    let ofCount := knot [⟨"v", .vector .count, none, .unknown⟩, ⟨"e", .error, none, .unknown⟩]
      [.expr (.assign (.name "e") (.name "v")),
        knotPut "v" "e"]
    ∀ u ∈ [ofAny, ofCount], load u 0 = .ok (build u 0) ∧
      (knotted u).heap.Holds (.vector ⟨0⟩) (.vector ⟨0⟩) ∧
      (knotted u).heap.text (.vector ⟨0⟩) = .error .exhausted := by
  intro ofAny ofCount u hu
  simp only [List.mem_cons, List.not_mem_nil, or_false] at hu
  rcases hu with rfl | rfl
  all_goals
    exact ⟨load_eq_ok_iff.mpr ⟨rfl, by decide +kernel⟩, by decide +kernel, by decide +kernel⟩

end Script

end Vigil
