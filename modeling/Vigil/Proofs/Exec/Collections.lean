import Vigil.Proofs.Trigger.Confined
import Vigil.Proofs.Typing.Heap

/-!
# Vigil.Proofs.Exec.Collections — what holds of all collections

Scripts change a table by storing and removing entries and by iterating over it
(`Table.Change`), a vector by storing and removing elements (`Vec.Change`), and
they make new collections, which are empty. What holds of every collection and
stays true under these changes (`Heap.Durable`) is kept by every statement,
whatever it ends in (`Heap.Durable.exec`), and so it holds in every engine that a
host can bring about (`Heap.Durable.everIn`).

Two such properties are used elsewhere: no vector is larger than a row can be
(`Heap.durable_sized`), and every key of a table is the key of an index
(`Heap.durable_keyed`).
-/

namespace Vigil

open Exec (Keeps)

/-! ## Changes -/

/-- The ways a table changes. -/
inductive Table.Change (t : Table) : Table → Prop where
  | assign {index v t'} (h : t.assign index v = .ok t') :
      Change t t'
  | remove {index found t'} (h : t.remove index = .ok (found, t')) : Change t t'
  | enter : Change t t.enter
  | leave : Change t t.leave

/-- The ways a vector changes. -/
inductive Vec.Change (x : Vec) : Vec → Prop where
  | assign {i : Nat} {v : Value} {x' : Vec} (h : x.assign i v = .ok x') : Change x x'
  | remove (i : Nat) : Change x (x.remove i).2

namespace Heap

/-- A property of the collections that holds when there are none, and that every
change keeps. -/
structure Durable (I : Heap → Prop) : Prop where
  empty : I .empty
  table : ∀ {h : Heap} (r : TableRef) {t : Table}, I h → (h.table r).Change t → I (h.setTable r t)
  vec : ∀ {h : Heap} (r : VecRef) {x : Vec}, I h → (h.vec r).Change x → I (h.setVec r x)
  fresh : ∀ {h h' : Heap} {ty : Ty} {v : Value}, I h → h.fresh? ty = some (v, h') → I h'

/-- The property holds afterwards if it did before. -/
abbrev Kept (I : Heap → Prop) : World → World → Prop := World.Preserves fun w => I w.heap

/-- What holds of each table by itself. -/
theorem Durable.of_tables {P : Table → Prop} (hnone : P default)
    (hnew : ∀ ty t, Table.ofTy? ty = some t → P t) (hchange : ∀ t t', P t → t.Change t' → P t') :
    Durable fun h => ∀ r, P (h.table r) where
  empty _ := hnone
  table r t hI ht r' := by
    rw [table_setTable]
    split
    · exact hchange _ _ (hI r) ht
    · exact hI r'
  vec _ _ hI _ := hI
  fresh {h h' ty v} hI hfresh r := by
    unfold fresh? at hfresh
    split at hfresh
    · cases hfresh
      exact hI r
    · obtain ⟨t, ht, hpair⟩ := Option.map_eq_some_iff.mp hfresh
      cases hpair
      simp only [Heap.table, Array.getElem?_push]
      split
      · exact hnew _ t ht
      · exact hI r

/-- What holds of each vector by itself. -/
theorem Durable.of_vecs {P : Vec → Prop} (hnone : P default) (hnew : ∀ elem, P (.empty elem))
    (hchange : ∀ x x', P x → x.Change x' → P x') : Durable fun h => ∀ r, P (h.vec r) where
  empty _ := hnone
  table _ _ hI _ := hI
  vec r x hI hx r' := by
    rw [vec_setVec]
    split
    · exact hchange _ _ (hI r) hx
    · exact hI r'
  fresh {h h' ty v} hI hfresh r := by
    unfold fresh? at hfresh
    split at hfresh
    · cases hfresh
      simp only [Heap.vec, Array.getElem?_push]
      split
      · exact hnew _
      · exact hI r
    · obtain ⟨t, ht, hpair⟩ := Option.map_eq_some_iff.mp hfresh
      cases hpair
      exact hI r

end Heap

/-! ## Statements -/

namespace Heap.Durable

variable {I : Heap → Prop} {f : FrameRef} {fuel : Nat} {s : Stmt}

/-- What does not touch the heap keeps the property. -/
theorem keeps_of_heap {α : Type} {x : Exec α} (hx : ∀ w, (x.leaves w).heap = w.heap) :
    Keeps (Kept I) x := by
  intro w hw
  rw [hx]
  exact hw

theorem writeSlot (i : Nat) (v : Value) : Keeps (Kept I) (Exec.writeSlot f i v) := by
  refine keeps_of_heap fun w => ?_
  unfold Exec.leaves
  rw [Exec.runFrom_writeSlot]
  cases (w.frame f).slots.set i v <;> rfl

theorem storeElement (hI : Durable I) (c : Value) (index : List Value) (v : Value) :
    Keeps (Kept I) (Exec.storeElement c index v) := by
  unfold Exec.storeElement
  split
  · refine .heap_bind fun w hw => ?_
    cases ht : (w.heap.table _).assign index (some v) with
    | error e => exact hw
    | ok t => exact hI.table _ hw (.assign ht)
  · refine .bind (.vectorPosition _) fun i => .heap_bind fun w hw => ?_
    cases hx : (w.heap.vec _).assign i v with
    | error e => exact hw
    | ok x => exact hI.vec _ hw (.assign hx)
  · exact .bind (.typeOf _) fun _ => .mismatch _

theorem addElement (hI : Durable I) (c : Value) (index : List Value) :
    Keeps (Kept I) (Exec.addElement c index) := by
  unfold Exec.addElement
  split
  · refine .heap_bind fun w hw => ?_
    cases ht : (w.heap.table _).assign index none with
    | error e => exact hw
    | ok t => exact hI.table _ hw (.assign ht)
  · exact .mismatch _

theorem deleteElement (hI : Durable I) (c : Value) (index : List Value) :
    Keeps (Kept I) (Exec.deleteElement c index) := by
  unfold Exec.deleteElement
  split
  · refine .heap_bind fun w hw => ?_
    cases ht : (w.heap.table _).remove index with
    | error e => exact hw
    | ok t => exact hI.table _ hw (.remove ht)
  · refine .bind (.vectorPosition _) fun i => .heap_bind fun w hw => ?_
    exact hI.vec _ hw (.remove i)
  · exact .bind (.typeOf _) fun _ => .mismatch _

theorem giveFresh (hI : Durable I) (ids : List Ident) : Keeps (Kept I) (Stmt.giveFresh f ids) := by
  induction ids with
  | nil => exact .pure _
  | cons id rest ih =>
    refine .heap_bind fun w hw => ?_
    rcases hfresh : w.heap.fresh? id.ty with _ | ⟨v, h⟩
    · exact Keeps.bind (keeps_of_heap fun _ => rfl) (fun _ => ih) w hw
    · exact Keeps.bind (writeSlot id.slot v) (fun _ => ih) { w with heap := h } (hI.fresh hw hfresh)

theorem eval (hI : Durable I) (e : Expr) : Keeps (Kept I) (e.eval f) := by
  refine e.eval_keeps fun p _ => ?_
  cases p with
  | slot i => exact writeSlot i
  | element => exact hI.storeElement

theorem rules (hI : Durable I) : Stmt.Rules f fun x _ => Keeps (Kept I) x where
  bind := .bind
  onFault := .onFault
  fault := .fault
  clock hk := .bind .get fun w => hk w w rfl
  setNext _ := keeps_of_heap fun _ => rfl
  raise _ _ := keeps_of_heap fun _ => rfl
  table r g hg := by
    intro w hw
    rcases hg with rfl | rfl
    · exact hI.table r hw .enter
    · exact hI.table r hw .leave
  pure := .pure
  abort := .abort
  heap := .heap
  writeSlot := writeSlot
  giveFresh := hI.giveFresh

theorem addTo (hI : Durable I) (e : Expr) : Keeps (Kept I) (e.addTo f) := by
  unfold Expr.addTo
  split
  · exact .bind (hI.eval _) fun _ => .bind (hI.rules.evalList fun e _ => hI.eval e) fun _ =>
      hI.addElement _ _
  · exact .mismatch _

theorem deleteFrom (hI : Durable I) (e : Expr) : Keeps (Kept I) (e.deleteFrom f) := by
  unfold Expr.deleteFrom
  split
  · exact .bind (hI.eval _) fun _ => .bind (hI.rules.evalList fun e _ => hI.eval e) fun _ =>
      hI.deleteElement _ _
  · exact .mismatch _

theorem install (hI : Durable I) (htag : s.tag = .when) : Keeps (Kept I) (s.act fuel f) := by
  cases s with
  | «when» i test body timeout timeoutBody isReturn =>
    refine .bind (.bind (hI.rules.deadline fun e _ => hI.eval e) fun limit => ?_) fun _ => .pure _
    refine keeps_of_heap fun w => ?_
    change (w.install _ limit isReturn _).heap = w.heap
    rw [World.install_eq]
  | _ => cases htag

theorem congruence (hI : Durable I) : Stmt.Congruence (fun _ => True) (fun s => s) fuel fuel f
    fun x _ => Keeps (Kept I) x where
  toRules := hI.rules
  parts _ _ _ _ _ := trivial
  info _ := rfl
  shape s _ _ := s.mapParts_self.symm
  visit _ _ := keeps_of_heap fun _ => rfl
  eval _ _ e _ := hI.eval e
  addTo _ e _ := hI.addTo e
  deleteFrom _ e _ := hI.deleteFrom e
  list _ body _ hbody := by
    rw [Stmt.act]
    have hlist := @Stmt.Rules.execList fuel fuel f (fun x _ => Keeps (Kept I) x) (fun s => s)
      hI.rules (.hasDelayed f) (fun _ => rfl) body fun t ht => hbody t ht trivial
    exact hlist
  install _ _ htag := hI.install htag
  print _ args _ := .bind (hI.rules.evalList fun e _ => hI.eval e) fun _ => .bind .heap fun _ =>
    .bind (.ofStop _) fun _ => keeps_of_heap fun _ => rfl
  whileLoop htest hb := .bind .get fun _ => Keeps.sequential.whileRounds htest hb _ _
  vectorLoop r _ _ _ hbind hb := Keeps.sequential.vectorRounds r hbind hb _ _

/-- A statement keeps what holds of the collections, whatever it ends in. -/
theorem exec (hI : Durable I) (fuel : Nat) (f : FrameRef) (s : Stmt) :
    Keeps (Kept I) (s.exec fuel f) := hI.congruence.exec trivial

/-! ## Histories -/

theorem invariant (hI : Durable I) : World.Invariant (fun _ _ => True) fun w => I w.heap where
  clerical := by
    intro w g hg h
    obtain ⟨_, _, _, _, _, _, _, heq⟩ := hg.kept w
    rw [heq]
    exact h
  note _ h := h
  visit _ h := h
  setNext _ _ := keeps_of_heap fun _ => rfl
  enter r _ h := hI.table r h .enter
  writeSlot _ := writeSlot
  eval _ := hI.eval
  exec _ fuel := hI.exec fuel _ _
  body _ _ _ := trivial
  addFrame _ _ h := h

/-- Whatever a host does, and wherever an operation gets, it holds of the
collections. -/
theorem executes (hI : Durable I) {P : FrameRef → Stmt → Prop} {now : Instant} {limits : Limits}
    {w w' : World} (h : World.EverIn P (.start now limits) w) {op : HostOp}
    (hs : op.Executes fuel w f s w') : I w'.heap := by
  have hw := hI.invariant.everIn (h.mono fun _ _ _ => trivial) hI.empty
  refine (hI.invariant.executes (fun _ _ _ _ _ => trivial) hs ?_ hw).1
  cases op <;> trivial

end Heap.Durable

/-! ## Sizes and keys -/

/-- The vector is not larger than a row can be. -/
def Vec.Sized (x : Vec) : Prop := x.size ≤ Slots.maxSize

/-- Every key is that of some index. -/
def Table.Keyed (t : Table) : Prop := ∀ e ∈ t.entries, ∃ index, t.key index = .ok e.1

theorem Heap.durable_sized : Durable fun h => ∀ r, (h.vec r).Sized := by
  refine .of_vecs (Nat.zero_le _) (fun _ => Nat.zero_le _) fun x x' hx hchange => ?_
  cases hchange with
  | assign h =>
    have hsize := Vec.size_assign h
    unfold Vec.Sized at *
    omega
  | remove i =>
    unfold Vec.Sized at *
    rwa [Vec.remove, Vec.size, Slots.clear, Array.size_setIfInBounds]

theorem Heap.durable_keyed : Durable fun h => ∀ r, (h.table r).Keyed := by
  refine .of_tables (fun e he => absurd he List.not_mem_nil) (fun ty t ht e he => ?_)
    fun t t' ht hchange => ?_
  · rw [(Table.fresh_of_ofTy ht).1] at he
    cases he
  · cases hchange with
    | @assign index v _ h =>
      unfold Table.assign at h
      rcases hk : t.key index with e | k
      · rw [hk] at h
        cases h
      · rw [hk] at h
        cases h
        intro e he
        rcases Table.mem_insertKey he with rfl | hold
        · exact ⟨index, hk⟩
        · exact ht e hold
    | @remove index found _ h =>
      unfold Table.remove at h
      rcases hk : t.key index with e | k
      · rw [hk] at h
        cases h
      · rw [hk] at h
        cases h
        exact fun e he => ht e (Table.mem_of_mem_eraseKey he)
    | enter | leave => exact ht

end Vigil
