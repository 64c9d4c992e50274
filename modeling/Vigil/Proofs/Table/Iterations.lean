import Vigil.Proofs.Exec.Guarantee
import Vigil.Proofs.Flow.Traces
import Vigil.Proofs.Trigger.Basic
import Vigil.Proofs.Typing.Heap
import Vigil.Script

/-!
# Vigil.Proofs.Table.Iterations — iterations are given back

A loop over a table counts as an iteration of it from its first round to its
last. The count goes up when the loop is entered and down again when the keys
are used up, when a round breaks or returns, and when a round fails; in between
the body may loop over the same table, change it, or make new tables.

* `Stmt.forRounds_table`, `Stmt.tableRounds_eq` — the loop starts a cursor, asks
  it before each round, and releases it when a round ends the loop.
* `World.SameIterations` — every table counts as many iterations as before,
  and a new one none.
* `World.GivesBack` — the same, but for one iteration less of one table: what
  the rounds of a loop that was entered do (`Stmt.tableRounds_givesBack`).
* `Stmt.iterations_given_back` — every execution that comes back leaves all
  counts as they were.
-/

namespace Vigil

/-! ## Loops and cursors -/

theorem Heap.setTable_table (h : Heap) (r : TableRef) : h.setTable r (h.table r) = h := by
  have hsame : h.tables.setIfInBounds r.idx (h.table r) = h.tables := by
    by_cases hr : r.idx < h.tables.size
    · rw [table, Array.getElem?_eq_getElem hr, Array.setIfInBounds, dif_pos hr]
      exact Array.set_getElem_self hr
    · exact Array.setIfInBounds_eq_of_size_le (Nat.le_of_not_lt hr)
  rw [setTable, hsame]

namespace Exec

/-- Hand out a cursor over a table. -/
def startCursor (r : TableRef) : Exec Table.Cursor := do
  let t := (← heap).table r
  modifyTable r fun t => t.start.2
  pure t.start.1

/-- Ask a cursor for the next entry. -/
def nextEntry (r : TableRef) (c : Table.Cursor) :
    Exec (Option (Key × Option Value) × Table.Cursor) := do
  let t := (← heap).table r
  modifyTable r fun t => (t.next c).2.2
  pure ((t.next c).1, (t.next c).2.1)

def releaseCursor (r : TableRef) (c : Table.Cursor) : Exec Unit :=
  modifyTable r fun t => (t.release c).2

theorem runFrom_nextEntry (r : TableRef) (c : Table.Cursor) (w : World) :
    (nextEntry r c).runFrom w =
      (.ok (((w.heap.table r).next c).1, ((w.heap.table r).next c).2.1),
        { w with heap := w.heap.setTable r ((w.heap.table r).next c).2.2 }) := rfl

end Exec

namespace Stmt

/-- A round of a loop over a table by its cursor, and the rounds after it. -/
def cursorRounds (r : TableRef) (bind : List Value → Option Value → Exec Unit)
    (body : Exec Outcome) (c : Table.Cursor) (last : Outcome)
    (rest : Table.Cursor → Outcome → Exec Outcome) : Exec Outcome := do
  let (entry, c) ← Exec.nextEntry r c
  match entry with
  | none => pure last
  | some (k, v) =>
    let index ← Exec.ofAbort (((← Exec.heap).table r).indexOf k)
    bind index v
    let out ← Exec.onFault body fun e => do
      Exec.releaseCursor r c
      Exec.fault e
    if out.flow.stops then
      Exec.releaseCursor r c
      pure out
    else rest c out

/-- The keys that are left are those of a live cursor. -/
theorem tableRounds_eq (r : TableRef) (bind : List Value → Option Value → Exec Unit)
    (body : Exec Outcome) (keys : List Key) (last : Outcome) :
    tableRounds r bind body keys last =
      cursorRounds r bind body ⟨keys, true⟩ last fun c => tableRounds r bind body c.keys := by
  funext w
  show Exec.runFrom _ w = Exec.runFrom _ w
  induction keys with
  | nil => rfl
  | cons k rest ih =>
    rw [runFrom_tableRounds_cons, Exec.runFrom_bind, Exec.runFrom_nextEntry]
    cases hfound : Table.find? k (w.heap.table r).entries with
    | none =>
      have hnext : (w.heap.table r).next ⟨k :: rest, true⟩ =
          (w.heap.table r).next ⟨rest, true⟩ := by
        simp [Table.next, Table.firstPresent, hfound]
        rfl
      rw [hnext]
      exact ih
    | some v =>
      have hnext : (w.heap.table r).next ⟨k :: rest, true⟩ =
          (some (k, v), ⟨rest, true⟩, w.heap.table r) := by
        simp [Table.next, Table.firstPresent, hfound]
      rw [hnext, Heap.setTable_table]
      rfl

theorem forRounds_table (fuel : Nat) (f : FrameRef) (vars : List Ident) (valueVar : Option Ident)
    (body : Exec Outcome) (r : TableRef) :
    forRounds fuel f vars valueVar (.table r) body = (do
      let c ← Exec.startCursor r
      tableRounds r (bindEntry f vars valueVar) body c.keys .next) := rfl

end Stmt

/-! ## Counts -/

namespace World

variable {r : TableRef}

/-- Tables stay, and each counts as many iterations as before. A reference to
nothing counts none, so a table that is new counts none either. -/
structure SameIterations (w w' : World) : Prop where
  stay : w.heap.tables.size ≤ w'.heap.tables.size
  active : ∀ t, (w'.heap.table t).active = (w.heap.table t).active

/-- Tables stay, and one iteration of `r` was given back. -/
structure GivesBack (r : TableRef) (w w' : World) : Prop where
  stay : w.heap.tables.size ≤ w'.heap.tables.size
  active : ∀ t, (w'.heap.table t).active = (w.heap.table t).active - if t = r then 1 else 0

instance : IsPreorder World SameIterations where
  refl _ := ⟨Nat.le_refl _, fun _ => rfl⟩
  trans _ _ _ h h' := ⟨Nat.le_trans h.stay h'.stay, fun t => (h'.active t).trans (h.active t)⟩

theorem SameIterations.trans_givesBack {w₁ w₂ w₃ : World} (h : SameIterations w₁ w₂)
    (h' : GivesBack r w₂ w₃) : GivesBack r w₁ w₃ where
  stay := Nat.le_trans h.stay h'.stay
  active t := by rw [h'.active, h.active]

/-! ## Changes of the heap -/

variable {w w' : World}

theorem sameIterations_of_tables (h : w'.heap.tables = w.heap.tables) : SameIterations w w' := by
  refine ⟨by rw [h], fun t => ?_⟩
  unfold Heap.table
  rw [h]

/-- Setting a table to one that counts `n` iterations. -/
theorem active_setTable (h : Heap) (r t : TableRef) (x : Table) :
    ((h.setTable r x).table t).active =
      if t = r ∧ r.idx < h.tables.size then x.active else (h.table t).active := by
  rw [Heap.table_setTable]
  split <;> rfl

theorem active_of_le {h : Heap} (hr : h.tables.size ≤ r.idx) : (h.table r).active = 0 := by
  unfold Heap.table
  rw [Array.getElem?_eq_none hr]
  rfl

/-- No edit touches the iterations a table counts. -/
theorem Edit.sameIterations {f : FrameRef} (h : Edit f w w') : SameIterations w w' := by
  cases h with
  | entries r es =>
    refine ⟨by simp [Heap.setTable], fun t => ?_⟩
    rw [active_setTable]
    split
    · rename_i hin
      rw [hin.1]
    · rfl
  | vector r x hsize => exact sameIterations_of_tables rfl
  | addTable x hfresh =>
    refine ⟨by simp [Heap.addTable], fun t => ?_⟩
    -- the new table takes the place of a reference to nothing
    by_cases ht : t.idx = w.heap.tables.size
    · have hnone : (w.heap.table t).active = 0 := active_of_le (by omega)
      rw [hnone]
      simp [Heap.table, Heap.addTable, ht, hfresh.2]
    · simp [Heap.table, Heap.addTable, Array.getElem?_push, ht]
  | addVec x => exact sameIterations_of_tables rfl
  | slots g => exact sameIterations_of_tables rfl

/-- One iteration less; a table that counts none goes on doing so. -/
theorem givesBack_leave (r : TableRef) (w : World) :
    GivesBack r w ((Exec.modifyTable r Table.leave).leaves w) := by
  refine ⟨by simp [Exec.leaves, Exec.modifyTable, Exec.runFrom_bind, Exec.heap, Heap.setTable],
    fun t => ?_⟩
  change ((w.heap.setTable r (w.heap.table r).leave).table t).active = _
  rw [active_setTable]
  by_cases ht : t = r
  · subst ht
    by_cases hin : t.idx < w.heap.tables.size
    · simp [hin, Table.leave]
    · simp [hin, active_of_le (Nat.le_of_not_lt hin)]
  · simp [ht]

/-- A loop that was entered and given back counts for nothing. -/
theorem sameIterations_of_givesBack
    (h : GivesBack r ((Exec.modifyTable r Table.enter).leaves w) w') : SameIterations w w' := by
  have hsize : ((Exec.modifyTable r Table.enter).leaves w).heap.tables.size =
      w.heap.tables.size := by
    simp [Exec.leaves, Exec.modifyTable, Exec.runFrom_bind, Exec.heap, Heap.setTable]
  refine ⟨by rw [← hsize]; exact h.stay, fun t => ?_⟩
  rw [h.active]
  change ((w.heap.setTable r (w.heap.table r).enter).table t).active - _ = _
  rw [active_setTable]
  by_cases ht : t = r
  · subst ht
    by_cases hin : t.idx < w.heap.tables.size
    · simp [hin, Table.enter]
    · simp [hin, active_of_le (Nat.le_of_not_lt hin)]
  · simp [ht]

end World

/-! ## Loops over a table -/

namespace Exec

open World (SameIterations GivesBack)

variable {α β : Type} {r : TableRef}

/-- While it succeeds `x` leaves all counts as they are, and when it fails an
iteration of `r` has been given back. -/
def Guarded (r : TableRef) (x : Exec α) : Prop :=
  ∀ w, (∀ a w', x.runFrom w = (.ok a, w') → SameIterations w w') ∧
    ∀ e w', x.runFrom w = (.error (.fault e), w') → GivesBack r w w'

/-- A part of a round, and what is left of the loop after it. -/
theorem Guarded.bind {x : Exec α} {k : α → Exec β} (hx : Guarded r x)
    (hk : ∀ a, Respects (GivesBack r) (k a)) : Respects (GivesBack r) (x >>= k) := by
  intro w hback
  unfold leaves
  rw [runFrom_bind] at hback ⊢
  rcases h : x.runFrom w with ⟨(e | a | _) | a, w₁⟩
  · exact (hx w).2 e w₁ h
  · rw [h] at hback
    cases hback
  · rw [h] at hback
    cases hback
  · rw [h] at hback
    exact ((hx w).1 a w₁ h).trans_givesBack (hk a w₁ hback)

/-- A computation that keeps the counts and has no errors of the script. -/
theorem Guarded.of_unfailing {x : Exec α} (hx : Respects SameIterations x)
    (hnone : ∀ w e, (x.runFrom w).1 ≠ .error (.fault e)) : Guarded r x := by
  intro w
  refine ⟨fun a w' h => hx.of_eq h rfl, fun e w' h => ?_⟩
  exact absurd (congrArg Prod.fst h) (hnone w e)

/-- The body of a round: its error gives the iteration back. -/
theorem Guarded.onFault {x : Exec α} (hx : Respects SameIterations x) :
    Guarded r (onFault x fun e => do
      modifyTable r Table.leave
      fault e) := by
  intro w
  refine ⟨fun a w' h' => ?_, fun e w' h' => ?_⟩
  · -- the body came to its end
    rw [runFrom_onFault] at h'
    rcases h : x.runFrom w with ⟨(e | a | _) | a, w₁⟩ <;> rw [h] at h' <;> cases h'
    exact hx.of_eq h rfl
  · rw [runFrom_onFault] at h'
    rcases h : x.runFrom w with ⟨(e | a | _) | a, w₁⟩ <;> rw [h] at h' <;> cases h'
    have hsame : SameIterations w w₁ := hx.of_eq h rfl
    exact hsame.trans_givesBack (World.givesBack_leave r w₁)

end Exec

namespace Stmt

open Exec (Respects Guarded)
open World (SameIterations GivesBack)

variable {f : FrameRef}

/-- Slots are written, or the frame cannot grow: there is no error of the
script. -/
theorem writeSlot_ne_fault (i : Nat) (v : Value) (w : World) (e : Fault) :
    ((Exec.writeSlot f i v).runFrom w).1 ≠ .error (.fault e) := by
  rw [Exec.runFrom_writeSlot]
  cases (w.frame f).slots.set i v <;> nofun

theorem bindEntry_ne_fault (vars : List Ident) (valueVar : Option Ident) (index : List Value)
    (v : Option Value) (w : World) (e : Fault) :
    ((bindEntry f vars valueVar index v).runFrom w).1 ≠ .error (.fault e) := by
  -- a sequence fails only where one of its parts does
  have hseq : ∀ {x y : Exec Unit}, (∀ w e, (x.runFrom w).1 ≠ .error (.fault e)) →
      (∀ w e, (y.runFrom w).1 ≠ .error (.fault e)) →
        ∀ w e, ((do x; y).runFrom w).1 ≠ .error (.fault e) := by
    intro x y hx hy w e
    have hxw := hx w e
    rw [Exec.runFrom_bind]
    rcases h : x.runFrom w with ⟨s | a, w₁⟩
    · rw [h] at hxw
      exact hxw
    · exact hy w₁ e
  have hvars : ∀ (bs : List (Ident × Value)) (w : World) (e : Fault),
      ((bs.forM fun b => Exec.writeSlot f b.1.slot b.2).runFrom w).1 ≠
        .error (.fault e) := by
    intro bs
    induction bs with
    | nil =>
      intro w e h
      cases h
    | cons b bs ih => exact hseq (writeSlot_ne_fault b.1.slot b.2) ih
  unfold bindEntry
  dsimp only
  split
  · exact hseq (writeSlot_ne_fault _ _) (hvars _) w e
  · exact hvars _ w e

/-- However the rounds of a loop over a table end, its iteration is given
back. -/
theorem tableRounds_givesBack (r : TableRef) (vars : List Ident) (valueVar : Option Ident)
    {body : Exec Outcome} (hb : Respects SameIterations body) (keys : List Key) (last : Outcome) :
    Respects (GivesBack r) (tableRounds r (bindEntry f vars valueVar) body keys last) := by
  have hleave : ∀ out : Outcome, Respects (GivesBack r) (do
      Exec.modifyTable r Table.leave
      pure out) := fun out w _ => World.givesBack_leave r w
  induction keys generalizing last with
  | nil =>
    rw [tableRounds]
    exact hleave last
  | cons k rest ih =>
    rw [tableRounds]
    have hheap : Guarded r Exec.heap :=
      .of_unfailing (fun w _ => refl_of SameIterations w) fun _ _ h => by cases h
    refine hheap.bind fun h => ?_
    dsimp only
    split
    · exact ih last
    · have hindex : ∀ t : Table, Guarded r (Exec.ofAbort (t.indexOf k)) := by
        intro t
        cases t.indexOf k with
        | error a => exact .of_unfailing (.throw _) fun _ _ h => by cases h
        | ok vals => exact .of_unfailing (.pure _) fun _ _ h => by cases h
      have hbind : ∀ index v, Guarded r (bindEntry f vars valueVar index v) := fun index v =>
        .of_unfailing (.of_edits (bindEntry_edits vars valueVar index v) fun _ _ h =>
          h.sameIterations) (bindEntry_ne_fault vars valueVar index v)
      refine (hindex _).bind fun index => (hbind _ _).bind fun _ => (Guarded.onFault hb).bind ?_
      intro out
      split
      · exact hleave out
      · exact ih out

/-- No statement changes how many iterations a table counts. -/
theorem guarantee_sameIterations (fuel : Nat) (f : FrameRef) :
    Guarantee (fun _ => True) fuel f SameIterations where
  parts _ _ _ _ := trivial
  edit w w' h := h.sameIterations
  next w i := World.sameIterations_of_tables rfl
  print w line := World.sameIterations_of_tables rfl
  raise w e := World.sameIterations_of_tables rfl
  start s _ _ w := World.sameIterations_of_tables rfl
  overTable r vars valueVar body hb := by
    intro w hback
    have hrounds := tableRounds_givesBack (f := f) r vars valueVar hb (w.heap.table r).keys .next
    exact World.sameIterations_of_givesBack
      (hrounds ((Exec.modifyTable r Table.enter).leaves w) hback)
  wait s _ htag := by
    cases s with
    | «when» i test body timeout timeoutBody isReturn =>
      have hinstall : Respects SameIterations
          (install ⟨test, body, timeoutBody, f⟩ timeout isReturn i.span) := by
        refine .bind (.of_edits (deadline_edits timeout) fun _ _ h => h.sameIterations) fun d => ?_
        exact .modify fun w => World.sameIterations_of_tables (by rw [World.install_eq])
      rw [exec_eq]
      refine .bind (.modify fun w => World.sameIterations_of_tables rfl) fun _ => ?_
      exact .bind hinstall fun _ => .pure _
    | _ => cases htag

/-- No iteration is leaked: when an execution comes back, with an outcome or
with an error, every table counts as many iterations as before, and the tables
made on the way count none. -/
theorem iterations_given_back (s : Stmt) (fuel : Nat) (f : FrameRef) {w w' : World}
    {r : Except Stop Outcome} (h : (s.exec fuel f).runFrom w = (r, w'))
    (hback : Exec.cameBack r) :
    (∀ t : TableRef, t.idx < w.heap.tables.size →
      t.idx < w'.heap.tables.size ∧ (w'.heap.table t).active = (w.heap.table t).active) ∧
    ∀ t : TableRef, w.heap.tables.size ≤ t.idx → t.idx < w'.heap.tables.size →
      (w'.heap.table t).active = 0 := by
  have hsame : SameIterations w w' :=
    ((guarantee_sameIterations fuel f).exec (s := s) trivial).of_eq h hback
  refine ⟨fun t ht => ⟨Nat.lt_of_lt_of_le ht hsame.stay, hsame.active t⟩, fun t hnew _ => ?_⟩
  rw [hsame.active, World.active_of_le hnew]

/-- Two elements are added to a set. A loop over it starts another one in its
round, which makes a set of its own, removes an element and divides by zero. -/
def sharedLoops (seen : TableRef) : Stmt :=
  let elem (v : UInt64) : Expr := .index (.const (.table seen) ⟨.set [.count], .unknown⟩)
    [.const (.count v) ⟨.count, .unknown⟩] ⟨.bool, .unknown⟩
  let overSeen (i : Nat) (body : Stmt) : Stmt :=
    .for ⟨i, .unknown⟩ [⟨"k", 0, .count, none⟩] none
      (.const (.table seen) ⟨.set [.count], .unknown⟩) body
  .list ⟨7, .unknown⟩
    [.add ⟨0, .unknown⟩ (elem 1), .add ⟨1, .unknown⟩ (elem 2),
      overSeen 6 <| overSeen 5 <| .list ⟨4, .unknown⟩
        [.init ⟨2, .unknown⟩ [⟨"own", 1, .set [.count], none⟩], .delete ⟨3, .unknown⟩ (elem 1),
          .expr ⟨8, .unknown⟩ (.binary .div (.const (.count 1) ⟨.count, .unknown⟩)
            (.const (.count 0) ⟨.count, .unknown⟩) ⟨.count, .unknown⟩)]]

/-- The set is looped over from outside as well, and after the error that
iteration is the one it still counts. -/
theorem iterations_given_back_by_error :
    ∃ w w' : World, (w.heap.table ⟨0⟩).active = 1 ∧ w.heap.tables.size = 1 ∧
      ((sharedLoops ⟨0⟩).exec 0 ⟨0⟩).runFrom w = (.error (.fault .divisionByZero), w') ∧
      (w'.heap.table ⟨0⟩).entries.length = 1 ∧ w'.heap.tables.size = 2 ∧
      (w'.heap.table ⟨0⟩).active = 1 ∧ (w'.heap.table ⟨1⟩).active = 0 := by
  let w : World := { ((World.start default default).addFrame 2 none).2 with
    heap := ⟨#[⟨[.count], none, [], 1⟩], #[]⟩ }
  let w' := ((sharedLoops ⟨0⟩).exec 0 ⟨0⟩).leaves w
  have hrun : ((sharedLoops ⟨0⟩).exec 0 ⟨0⟩).runFrom w =
      (.error (.fault .divisionByZero), w') := Exec.runFrom_of_answer (by decide +kernel)
  have hsize : w'.heap.tables.size = 2 := by decide +kernel
  obtain ⟨hold, hnew⟩ := iterations_given_back _ _ _ hrun rfl
  exact ⟨w, w', rfl, rfl, hrun, by decide +kernel, hsize, (hold ⟨0⟩ (by decide +kernel)).2,
    hnew ⟨1⟩ (by decide +kernel) (by decide +kernel)⟩

end Stmt

end Vigil
