import Vigil.Proofs.Stmt.Tree
import Vigil.Proofs.Trigger.Tally

/-!
# Vigil.Proofs.Coverage.Counts — how often the parts of a statement start

The journal counts how often each statement started. The counts of a statement
and of those right below it fit together in a way that its form prescribes
(`Stmt.Fits`): a list goes through its children from the first on, an event
body runs all of its handlers, a condition takes at most one branch, a `when`
leaves at most one of its bodies to be run, or holds it still.

Counts that fit still do when others that fit are added (`Fits.add`), so it is
enough to say what a single execution adds (`Stmt.exec_ran`).
-/

namespace Vigil

/-- How often statements started, and how many triggers wait to run them. -/
@[ext] structure Counts where
  starts : StmtId → Nat
  waits : StmtId → Nat

namespace Counts

instance : Zero Counts := ⟨⟨fun _ => 0, fun _ => 0⟩⟩

instance : Add Counts :=
  ⟨fun m n => ⟨fun i => m.starts i + n.starts i, fun i => m.waits i + n.waits i⟩⟩

variable (m n k : Counts) (i j : StmtId)

@[simp] theorem starts_zero : (0 : Counts).starts i = 0 := rfl

@[simp] theorem waits_zero : (0 : Counts).waits i = 0 := rfl

@[simp] theorem starts_add : (m + n).starts i = m.starts i + n.starts i := rfl

@[simp] theorem waits_add : (m + n).waits i = m.waits i + n.waits i := rfl

protected theorem zero_add : 0 + m = m := by
  ext i <;> simp

protected theorem add_assoc : m + n + k = m + (n + k) := by
  ext i <;> simp [Nat.add_assoc]

/-- A statement starts once. -/
def start : Counts := ⟨fun j => if j = i then 1 else 0, fun _ => 0⟩

/-- One trigger waits to run a statement. -/
def wait : Counts := ⟨fun _ => 0, fun j => if j = i then 1 else 0⟩

/-- Nothing is counted but for the numbers given. -/
def Within (ids : List StmtId) (n : Counts) : Prop := ∀ i ∉ ids, n.starts i = 0 ∧ n.waits i = 0

variable {m n i}

theorem Within.mono {ids ids' : List StmtId} (h : n.Within ids) (hsub : ids ⊆ ids') :
    n.Within ids' := fun i hi => h i fun hin => hi (hsub hin)

theorem Within.add {ids : List StmtId} (hm : m.Within ids) (hn : n.Within ids) :
    (m + n).Within ids := fun i hi => by simp [hm i hi, hn i hi]

end Counts

/-! ## Counts that fit -/

namespace Stmt

/-- How the counts of a statement and of those right below it fit together. -/
def Fits (n : Counts) : Stmt → Prop
  | .list i body =>
    body.Pairwise (fun a b => n.starts b.id ≤ n.starts a.id) ∧
      ∀ a ∈ body.head?, n.starts a.id = n.starts i.id
  | .bodyList i bodies => ∀ a ∈ bodies, n.starts a.id = n.starts i.id
  | .cond i _ thenBody elseBody =>
    n.starts thenBody.id + n.starts elseBody.id ≤ n.starts i.id
  | .when i _ body _ timeoutBody _ =>
    n.starts body.id + (timeoutBody.elim 0 fun b => n.starts b.id) + n.waits body.id ≤
      n.starts i.id
  | _ => True

variable {s c q : Stmt} {ss : List Stmt} {m n d : Counts}

/-- Whether counts fit depends on those of a statement and of its children. -/
theorem Fits.congr (h : s.Fits m) (hstarts : ∀ i ∈ s.family, n.starts i = m.starts i)
    (hwaits : ∀ i ∈ numbers s.children, n.waits i = m.waits i) : s.Fits n := by
  have hself : n.starts s.id = m.starts s.id := hstarts _ List.mem_cons_self
  have hchild : ∀ a ∈ s.children, n.starts a.id = m.starts a.id := fun a ha =>
    hstarts _ (List.mem_cons_of_mem _ (List.mem_map_of_mem ha))
  cases s with
  | list i body =>
    refine ⟨h.1.imp_of_mem fun ha hb hle => ?_, fun a ha => ?_⟩
    · rwa [hchild _ ha, hchild _ hb]
    · rw [hchild a (List.mem_of_mem_head? ha)]
      exact (h.2 a ha).trans hself.symm
  | bodyList i bodies => exact fun a ha => (hchild a ha).trans ((h a ha).trans hself.symm)
  | cond i test thenBody elseBody =>
    rw [Fits] at h ⊢
    rw [hchild thenBody (by simp [children]), hchild elseBody (by simp [children])]
    exact Nat.le_trans h (Nat.le_of_eq hself.symm)
  | «when» i test body timeout timeoutBody isReturn =>
    have hbody : body ∈ (Stmt.when i test body timeout timeoutBody isReturn).children :=
      List.mem_cons_self
    rw [Fits] at h ⊢
    rw [hchild body hbody, hwaits body.id (List.mem_map_of_mem hbody)]
    cases timeoutBody with
    | none => exact Nat.le_trans h (Nat.le_of_eq hself.symm)
    | some b =>
      have hb := hchild b (List.mem_cons_of_mem _ List.mem_cons_self)
      dsimp only [Option.elim] at h ⊢
      rw [hb]
      exact Nat.le_trans h (Nat.le_of_eq hself.symm)
  | _ => trivial

theorem fits_zero (s : Stmt) : s.Fits 0 := by
  cases s with
  | list i body =>
    refine ⟨?_, fun _ _ => rfl⟩
    induction body with
    | nil => exact .nil
    | cons a body ih => exact .cons (fun _ _ => Nat.le_refl 0) ih
  | bodyList i bodies => exact fun _ _ => rfl
  | cond i test thenBody elseBody => exact Nat.le_refl 0
  | «when» i test body timeout timeoutBody isReturn =>
    cases timeoutBody <;> exact Nat.le_refl 0
  | _ => trivial

/-- Nothing counted for the statement and its children fits. -/
theorem fits_of_quiet (hstarts : ∀ i ∈ s.family, n.starts i = 0)
    (hwaits : ∀ i ∈ numbers s.children, n.waits i = 0) : s.Fits n :=
  s.fits_zero.congr hstarts hwaits

theorem Fits.add (hm : s.Fits m) (hn : s.Fits n) : s.Fits (m + n) := by
  cases s with
  | list i body =>
    refine ⟨(hm.1.and hn.1).imp fun h => Nat.add_le_add h.1 h.2, fun a ha => ?_⟩
    exact congrArg₂ (· + ·) (hm.2 a ha) (hn.2 a ha)
  | bodyList i bodies => exact fun a ha => congrArg₂ (· + ·) (hm a ha) (hn a ha)
  | cond i test thenBody elseBody =>
    simp only [Fits, Counts.starts_add] at *
    omega
  | «when» i test body timeout timeoutBody isReturn =>
    cases timeoutBody <;> simp only [Fits, Option.elim, Counts.starts_add, Counts.waits_add] at *
      <;> omega
  | _ => trivial

/-- Where fewer triggers wait, counts still fit. -/
theorem Fits.fewer (h : s.Fits n) (hstarts : m.starts = n.starts)
    (hwaits : ∀ i, m.waits i ≤ n.waits i) : s.Fits m := by
  cases s with
  | list i body | bodyList i body | cond i test thenBody elseBody =>
    rw [Fits, hstarts]
    exact h
  | «when» i test body timeout timeoutBody isReturn =>
    rw [Fits, hstarts]
    exact Nat.le_trans (Nat.add_le_add_left (hwaits _) _) h
  | _ => trivial

/-! ## What is added inside some trees -/

/-- Counts for the statements given, which fit. -/
structure Inside (ss : List Stmt) (d : Counts) : Prop where
  within : d.Within (numbers ss)
  fits : ∀ q ∈ ss, q.Fits d

theorem Inside.zero (ss : List Stmt) : Inside ss 0 :=
  ⟨fun _ _ => ⟨rfl, rfl⟩, fun q _ => q.fits_zero⟩

theorem Inside.add (hm : Inside ss m) (hn : Inside ss n) : Inside ss (m + n) :=
  ⟨hm.within.add hn.within, fun q hq => (hm.fits q hq).add (hn.fits q hq)⟩

/-- Counts outside of the tree a statement is in leave its own alone. -/
theorem fits_of_disjoint (hq : q ∈ s.preorder) (hd : d.Within (numbers ss))
    (hdisjoint : List.Disjoint (numbers s.preorder) (numbers ss)) : q.Fits d := by
  have hout : ∀ i ∈ numbers s.preorder, i ∉ numbers ss := fun i hi hss => hdisjoint hi hss
  refine fits_of_quiet (fun i hi => (hd i (hout i (family_subset hq hi))).1) fun i hi => ?_
  exact (hd i (hout i (numbers_subset (children_subset hq) hi))).2

theorem Distinct.cons (h : Distinct (forest (s :: ss))) :
    Distinct s.preorder ∧ Distinct (forest ss) ∧
      List.Disjoint (numbers s.preorder) (numbers (forest ss)) := by
  unfold Distinct numbers forest at h
  rw [List.flatMap_cons, List.map_append] at h
  obtain ⟨hs, hss, hdisjoint⟩ := List.nodup_append.mp h
  exact ⟨hs, hss, fun i hi hi' => hdisjoint i hi i hi' rfl⟩

/-- The first tree of a forest. -/
theorem Inside.first (h : Distinct (forest (s :: ss))) (hd : Inside s.preorder d) :
    Inside (forest (s :: ss)) d := by
  refine ⟨hd.within.mono (numbers_subset (List.subset_append_left _ _)), fun q hq => ?_⟩
  rcases List.mem_append.mp hq with hq | hq
  · exact hd.fits q hq
  · obtain ⟨t, ht, hq⟩ := List.mem_flatMap.mp hq
    refine fits_of_disjoint hq hd.within fun i hi hs => h.cons.2.2 hs ?_
    exact numbers_subset (preorder_subset_forest ht) hi

/-- The others. -/
theorem Inside.others (h : Distinct (forest (s :: ss))) (hd : Inside (forest ss) d) :
    Inside (forest (s :: ss)) d := by
  refine ⟨hd.within.mono (numbers_subset (List.subset_append_right _ _)), fun q hq => ?_⟩
  rcases List.mem_append.mp hq with hq | hq
  · exact fits_of_disjoint hq hd.within h.cons.2.2
  · exact hd.fits q hq

theorem Inside.widen (h : Distinct (forest ss)) (hc : c ∈ ss) (hd : Inside c.preorder d) :
    Inside (forest ss) d := by
  induction ss with
  | nil => cases hc
  | cons s ss ih =>
    rcases List.mem_cons.mp hc with rfl | hc
    · exact .first h hd
    · exact .others h (ih h.cons.2.1 hc)

/-- What an execution of a statement adds. -/
structure Ran (s : Stmt) (d : Counts) : Prop where
  inside : Inside s.preorder d
  starts : d.starts s.id = 1
  waits : d.waits s.id = 0

/-- What it adds after it started. -/
structure Below (s : Stmt) (d : Counts) : Prop where
  inside : Inside (forest s.children) d
  fits : s.Fits (.start s.id + d)

theorem Below.ran (h : Distinct s.preorder) (hd : Below s d) : Ran s (.start s.id + d) := by
  have hnone := hd.inside.within s.id h.root
  refine ⟨⟨?_, fun q hq => ?_⟩, ?_, ?_⟩
  · refine .add (fun i hi => ?_) (hd.inside.within.mono (numbers_subset (forest_children_subset s)))
    have hne : i ≠ s.id := by
      rintro rfl
      exact hi (List.mem_map_of_mem s.self_mem_preorder)
    exact ⟨if_neg hne, rfl⟩
  · rw [preorder_eq] at hq
    rcases List.mem_cons.mp hq with rfl | hq
    · exact hd.fits
    · refine .add (fits_of_quiet (fun i hi => if_neg ?_) fun _ _ => rfl) (hd.inside.fits q hq)
      rintro rfl
      obtain ⟨c, hc, hq⟩ := List.mem_flatMap.mp hq
      exact h.root (numbers_subset (preorder_subset_forest hc) (family_subset hq hi))
  · simp [Counts.start, hnone.1]
  · simp [Counts.start, hnone.2]

/-- What going through a list adds: its children start one after the other,
from the first on. -/
structure Row (ss : List Stmt) (d : Counts) : Prop where
  inside : Inside (forest ss) d
  order : ss.Pairwise fun a b => d.starts b.id ≤ d.starts a.id
  first : ∀ a ∈ ss.head?, d.starts a.id = 1

theorem Row.le_one (h : Row ss d) : ∀ a ∈ ss, d.starts a.id ≤ 1 := by
  intro a ha
  cases ss with
  | nil => cases ha
  | cons s ss =>
    have hfirst : d.starts s.id = 1 := h.first s rfl
    rcases List.mem_cons.mp ha with rfl | ha
    · exact Nat.le_of_eq hfirst
    · exact hfirst ▸ (List.pairwise_cons.mp h.order).1 a ha

/-- A statement, and with it the rest of the list or nothing. -/
theorem Row.cons (h : Distinct (forest (s :: ss))) (hm : Ran s m) (hn : n = 0 ∨ Row ss n) :
    Row (s :: ss) (m + n) := by
  have hlater : ∀ b ∈ ss, m.starts b.id = 0 := by
    intro b hb
    refine (hm.inside.within _ fun hin => h.cons.2.2 hin ?_).1
    exact List.mem_map_of_mem (mem_forest_self hb)
  have hrest : Inside (forest ss) n ∧ ss.Pairwise (fun a b => n.starts b.id ≤ n.starts a.id) ∧
      ∀ b ∈ ss, n.starts b.id ≤ 1 := by
    rcases hn with rfl | hn
    · exact ⟨.zero _, List.pairwise_of_forall fun _ _ => Nat.le_refl 0, fun _ _ => Nat.zero_le 1⟩
    · exact ⟨hn.inside, hn.order, hn.le_one⟩
  have hself : n.starts s.id = 0 :=
    (hrest.1.within _ fun hin => h.cons.2.2 (List.mem_map_of_mem s.self_mem_preorder) hin).1
  refine ⟨(hm.inside.first h).add (hrest.1.others h), List.pairwise_cons.mpr ⟨fun b hb => ?_, ?_⟩,
    fun a ha => ?_⟩
  · rw [Counts.starts_add, Counts.starts_add, hlater b hb, hm.starts, hself, Nat.zero_add]
    exact hrest.2.2 b hb
  · refine hrest.2.1.imp_of_mem fun ha hb hle => ?_
    rwa [Counts.starts_add, Counts.starts_add, hlater _ ha, hlater _ hb, Nat.zero_add, Nat.zero_add]
  · cases ha
    rw [Counts.starts_add, hm.starts, hself]

/-- What running all handlers of an event adds. -/
structure Each (ss : List Stmt) (d : Counts) : Prop where
  inside : Inside (forest ss) d
  once : ∀ a ∈ ss, d.starts a.id = 1

theorem Each.cons (h : Distinct (forest (s :: ss))) (hm : Ran s m) (hn : Each ss n) :
    Each (s :: ss) (m + n) := by
  refine ⟨(hm.inside.first h).add (hn.inside.others h), fun a ha => ?_⟩
  rw [Counts.starts_add]
  rcases List.mem_cons.mp ha with rfl | ha
  · rw [hm.starts, (hn.inside.within _ fun hin =>
      h.cons.2.2 (List.mem_map_of_mem a.self_mem_preorder) hin).1]
  · rw [hn.once a ha, (hm.inside.within _ fun hin =>
      h.cons.2.2 hin (List.mem_map_of_mem (mem_forest_self ha))).1]

/-! ## Bodies that waited -/

/-- A trigger waits no more, and one of the bodies its `when` left to it
runs. -/
theorem Fits.run_body {i : StmtInfo} {test : Expr} {body b : Stmt} {timeout : Option Expr}
    {timeoutBody : Option Stmt} {isReturn : Bool}
    (h : Distinct (Stmt.when i test body timeout timeoutBody isReturn).preorder)
    (hn : (Stmt.when i test body timeout timeoutBody isReturn).Fits n)
    (hb : b ∈ body :: timeoutBody.toList) (hd : Ran b d) (hstarts : m.starts = n.starts)
    (hwaits : n.waits body.id = m.waits body.id + 1) :
    (Stmt.when i test body timeout timeoutBody isReturn).Fits (m + d) := by
  have hcons : Distinct (forest (body :: timeoutBody.toList)) := h.below
  rw [Fits] at hn ⊢
  rw [← hstarts] at hn
  cases timeoutBody with
  | none =>
    cases List.mem_singleton.mp hb
    simp only [Option.elim, Counts.starts_add, Counts.waits_add, hd.starts, hd.waits] at *
    omega
  | some late =>
    have hself : ∀ a : Stmt, a.id ∈ numbers a.preorder := fun a =>
      List.mem_map_of_mem a.self_mem_preorder
    have hlate : numbers late.preorder ⊆ numbers (forest [late]) :=
      numbers_subset (preorder_subset_forest List.mem_cons_self)
    simp only [Option.elim, Counts.starts_add, Counts.waits_add] at *
    rcases List.mem_cons.mp hb with rfl | hb
    · have hother := (hd.inside.within late.id fun hin =>
        hcons.cons.2.2 hin (hlate (hself late))).1
      rw [hd.starts, hd.waits, hother]
      omega
    · cases List.mem_singleton.mp hb
      have hother := hd.inside.within body.id fun hin => hcons.cons.2.2 (hself body) (hlate hin)
      rw [hd.starts, hother.1, hother.2]
      omega

end Stmt

end Vigil
