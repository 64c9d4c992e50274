import Vigil.Proofs.Exec.Keeps
import Mathlib.Logic.Relation

/-!
# Vigil.Proofs.Exec.Edits — how expressions change the store

Whatever an expression does to the world is a sequence of edits of five kinds
(`World.Edit`): the entries of a table change, a vector is replaced by one that
is not too large, an empty table or vector is added, or slots of the frame
change. No edit touches the iterations a table counts, nor anything but the
heap and the frame. This holds of every ending (`Expr.eval_edits`), and of what
loops, cases and initializations bind as well. Sequences of edits are a
preorder, so all of it comes down to the computations that write.
-/

namespace Vigil

open Relation (ReflTransGen)

/-- A small change of the heap or of the slots of the frame `f`. -/
inductive World.Edit (f : FrameRef) : World → World → Prop where
  | entries (w : World) (r : TableRef) (es : List (Key × Option Value)) :
      Edit f w { w with heap := w.heap.setTable r { w.heap.table r with entries := es } }
  | vector (w : World) (r : VecRef) (x : Vec)
      (hsize : x.size ≤ max Slots.maxSize (w.heap.vec r).size) :
      Edit f w { w with heap := w.heap.setVec r x }
  | addTable (w : World) (t : Table) (hfresh : t.entries = [] ∧ t.active = 0) :
      Edit f w { w with heap := (w.heap.addTable t).2 }
  | addVec (w : World) (elem : Ty) : Edit f w { w with heap := (w.heap.addVec (.empty elem)).2 }
  | slots (w : World) (g : Slots → Slots) :
      Edit f w (w.modifyFrame f fun fr => { fr with slots := g fr.slots })

/-! ## Tables -/

namespace Table

variable {t t' : Table} {index : List Value}

/-- Assignment changes entries only. -/
theorem assign_entries {v : Option Value} (h : t.assign index v = .ok t') :
    ∃ es, t' = { t with entries := es } := by
  unfold assign at h
  rcases hk : t.key index with e | k
  · rw [hk] at h
    cases h
  · rw [hk] at h
    cases h
    exact ⟨_, rfl⟩

/-- Removal changes entries only. -/
theorem remove_entries {found : Bool} (h : t.remove index = .ok (found, t')) :
    ∃ es, t' = { t with entries := es } := by
  unfold remove at h
  rcases hk : t.key index with e | k
  · rw [hk] at h
    cases h
  · rw [hk] at h
    cases h
    exact ⟨_, rfl⟩

theorem fresh_of_ofTy {ty : Ty} (h : ofTy? ty = some t) : t.entries = [] ∧ t.active = 0 := by
  unfold ofTy? at h
  split at h
  · cases h
    exact ⟨rfl, rfl⟩
  · cases h
    exact ⟨rfl, rfl⟩
  · cases h

end Table

/-- A vector that grows does not get larger than a row can be. -/
theorem Vec.size_assign {x x' : Vec} {i : Nat} {v : Value} (h : x.assign i v = .ok x') :
    x'.size ≤ max Slots.maxSize x.size := by
  unfold assign Slots.set at h
  split at h
  · cases h
    simp only [size, Array.size_setIfInBounds]
    exact Nat.le_max_right _ _
  · split at h <;> cases h
    simp only [size, Array.size_push, Array.size_append, Array.size_replicate]
    omega

/-- A fresh collection is one that was added. -/
theorem World.edit_fresh {f : FrameRef} {w : World} {ty : Ty} {v : Value} {h : Heap}
    (hfresh : w.heap.fresh? ty = some (v, h)) : Edit f w { w with heap := h } := by
  have htable : ∀ {t : Table}, Table.ofTy? ty = some t → h = (w.heap.addTable t).2 →
      Edit f w { w with heap := h } := by
    rintro t ht rfl
    exact .addTable w t (Table.fresh_of_ofTy ht)
  unfold Heap.fresh? at hfresh
  split at hfresh
  · cases hfresh
    exact .addVec w _
  · obtain ⟨t, ht, hpair⟩ := Option.map_eq_some_iff.mp hfresh
    cases hpair
    exact htable ht rfl

/-! ## Computations -/

namespace Exec

variable {α β : Type} {f : FrameRef}

/-- Whatever `x` ends in, it changes the world by edits in the frame `f`. -/
def Edits (f : FrameRef) (x : Exec α) : Prop :=
  ∀ w, ReflTransGen (World.Edit f) w (x.leaves w)

namespace Edits

theorem of_keeps {x : Exec α} (h : Keeps (ReflTransGen (World.Edit f)) x) : Edits f x := h

theorem heap : Edits f heap := .of_keeps .heap

theorem typeOf (v : Value) : Edits f (typeOf v) := .of_keeps (.typeOf v)

theorem ofStop (r : Except Stop α) : Edits f (ofStop r) := .of_keeps (.ofStop r)

theorem bind {x : Exec α} {k : α → Exec β} (hx : Edits f x) (hk : ∀ a, Edits f (k a)) :
    Edits f (x >>= k) := .of_keeps (.bind hx hk)

/-- A computation that looks at the heap first. -/
theorem heap_bind {k : Heap → Exec β}
    (hk : ∀ w, ReflTransGen (World.Edit f) w ((k w.heap).leaves w)) :
    Edits f (Exec.heap >>= k) := hk

/-! ### Slots -/

theorem writeSlot (i : Nat) (v : Value) : Edits f (writeSlot f i v) := by
  intro w
  unfold leaves
  rw [runFrom_writeSlot]
  cases (w.frame f).slots.set i v with
  | error a => exact .refl
  | ok slots => exact .single (.slots w fun _ => slots)

theorem clearSlot (i : Nat) : Edits f (clearSlot f i) :=
  fun w => .single (.slots w fun slots => slots.clear i)

/-! ### Elements of collections -/

theorem vectorPosition (vs : List Value) : Edits f (vectorPosition vs) :=
  .of_keeps (.vectorPosition vs)

theorem mismatch (m : Mismatch) : Edits f (mismatch m : Exec α) := .of_keeps (.mismatch m)

/-- A table is written back with other entries. -/
theorem assign (r : TableRef) (index : List Value) (v : Option Value) :
    Edits f (do
      let h ← Exec.heap
      let t ← Exec.ofFault ((h.table r).assign index v)
      Exec.setHeap (h.setTable r t)) := by
  refine heap_bind fun w => ?_
  rcases ht : (w.heap.table r).assign index v with e | t
  · exact .refl
  · obtain ⟨es, rfl⟩ := Table.assign_entries ht
    exact .single (.entries w r es)

theorem storeElement (c : Value) (index : List Value) (v : Value) :
    Edits f (storeElement c index v) := by
  unfold Exec.storeElement
  split
  · exact assign _ _ _
  · rename_i r
    refine bind (vectorPosition _) fun i => heap_bind fun w => ?_
    rcases hx : (w.heap.vec r).assign i v with a | x
    · exact .refl
    · exact .single (.vector w r x (Vec.size_assign hx))
  · exact bind (typeOf _) fun _ => mismatch _

theorem addElement (c : Value) (index : List Value) : Edits f (addElement c index) := by
  unfold Exec.addElement
  split
  · exact assign _ _ _
  · exact mismatch _

theorem deleteElement (c : Value) (index : List Value) : Edits f (deleteElement c index) := by
  unfold Exec.deleteElement
  split
  · rename_i r
    refine heap_bind fun w => ?_
    rcases ht : (w.heap.table r).remove index with e | ⟨found, t⟩
    · exact .refl
    · obtain ⟨es, rfl⟩ := Table.remove_entries ht
      exact .single (.entries w r es)
  · rename_i r
    refine bind (vectorPosition _) fun i => fun w => .single (.vector w r _ ?_)
    simp only [Vec.remove, Vec.size, Slots.clear, Array.size_setIfInBounds]
    exact Nat.le_max_right _ _
  · exact bind (typeOf _) fun _ => mismatch _

end Edits

end Exec

/-! ## Expressions -/

namespace Expr

open Exec

theorem place_edits (f : FrameRef) (p : Place) : p.Has (Keeps (ReflTransGen (World.Edit f))) f := by
  cases p with
  | slot i => exact fun v => Edits.writeSlot i v
  | element => exact fun c index v => Edits.storeElement c index v

theorem eval_edits (f : FrameRef) (e : Expr) : Edits f (eval f e) :=
  .of_keeps (eval_keeps e fun p _ => place_edits f p)

theorem evalList_edits (f : FrameRef) (es : List Expr) : Edits f (evalList f es) :=
  .of_keeps (evalList_keeps es fun p _ => place_edits f p)

theorem addTo_edits (f : FrameRef) (e : Expr) : Edits f (e.addTo f) := by
  unfold addTo
  split
  · exact .bind (eval_edits f _) fun _ => .bind (evalList_edits f _) fun _ => .addElement _ _
  · exact .mismatch _

theorem deleteFrom_edits (f : FrameRef) (e : Expr) : Edits f (e.deleteFrom f) := by
  unfold deleteFrom
  split
  · exact .bind (eval_edits f _) fun _ => .bind (evalList_edits f _) fun _ => .deleteElement _ _
  · exact .mismatch _

end Expr

/-! ## Parts of statements -/

namespace Stmt

open Exec

variable {f : FrameRef}

theorem bindEntry_edits (vars : List Ident) (valueVar : Option Ident) (index : List Value)
    (v : Option Value) : Edits f (bindEntry f vars valueVar index v) :=
  .of_keeps (bindEntry_keeps (fun _ _ v => Edits.writeSlot _ v) index v)

theorem giveFresh_edits (ids : List Ident) : Edits f (giveFresh f ids) := by
  induction ids with
  | nil => exact .of_keeps (.pure _)
  | cons id rest ih =>
    refine .heap_bind fun w => ?_
    rcases hfresh : w.heap.fresh? id.ty with _ | ⟨v, h⟩
    · exact (Edits.bind (.clearSlot id.slot) fun _ => ih) w
    · -- the collection is added first, then bound
      have hstep := ReflTransGen.single (World.edit_fresh (f := f) hfresh)
      exact hstep.trans ((Edits.bind (.writeSlot id.slot v) fun _ => ih) { w with heap := h })

theorem deadline_edits (timeout : Option Expr) : Edits f (deadline f timeout) :=
  .of_keeps (deadline_keeps fun e _ => Expr.eval_edits f e)

end Stmt

/-- A look at a condition does what its expression does. -/
theorem World.holds_edits (c : Captured) : Exec.Edits c.frame (holds c) :=
  .of_keeps (.onFault (.bind (c.cond.eval_edits c.frame) fun _ => .pure _) fun _ => .pure _)

end Vigil
