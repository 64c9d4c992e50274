import Vigil.Proofs.Build.Heads
import Vigil.Proofs.Flow.Visits
import Vigil.Proofs.Table.Map

/-!
# Vigil.Proofs.Flow.Bindings — what loops over tables bind

Before each round of a loop over a table the value of the visited entry is written
to the value variable, and then the components of its index to the loop variables,
from left to right. A slot holds what was written to it last, and variables that
share a slot are one name written twice. So a loop variable holds its component
unless its name stands again further right, and the value variable holds the value
unless it is a loop variable as well (`Stmt.BindsEntry`).

That the index leads back to the entry rests on the keys of the table, each of
which is the key of an index (`Table.Keyed`).
-/

namespace Vigil

open Exec (Keeps)
open Sequence (Trace Round Conclusion)
open Relation (ReflTransGen)

variable {v : Option Value} {index : List Value}

/-- A key that is present is decoded to the index it stands for. -/
theorem Table.Keyed.indexOf {t : Table} (h : t.Keyed) {k : Key}
    (hfound : find? k t.entries = some v) (hindex : t.indexOf k = .ok index) :
    t.key index = .ok k ∧ index.length = t.index.length := by
  obtain ⟨written, hkey⟩ := h _ (mem_of_find? hfound)
  -- the tuple of the index that was written has the same key and stands for itself
  obtain ⟨τ, rfl⟩ : ∃ τ : Tuple t.index, τ.key = k := by
    unfold key at hkey
    rw [Tuple.encode_widen] at hkey
    cases hof : Tuple.of? t.index written with
    | none =>
      rw [hof] at hkey
      cases hkey
    | some τ =>
      rw [hof] at hkey
      cases hkey
      exact ⟨τ, rfl⟩
  have hvals : index = τ.vals := by
    unfold Table.indexOf at hindex
    rw [τ.decode_key] at hindex
    cases hindex
    rfl
  subst hvals
  refine ⟨?_, τ.fits.length_eq⟩
  unfold key
  rw [Tuple.encode_widen, τ.of?_vals]
  rfl

namespace Stmt

variable {f : FrameRef} {w w' w₁ : World} {r : TableRef} {vars : List Ident}
  {valueVar : Option Ident}

/-- What is offered is an entry, with its index, and it has been bound. -/
theorem tableOffer_some {bind : List Value → Option Value → Exec Unit} {keys rest : List Key}
    {x : Visited} (h : (tableOffer r bind keys).runFrom w = (.ok (some (x, rest)), w')) :
    Table.find? x.key (w.heap.table r).entries = some x.value ∧
      (w.heap.table r).indexOf x.key = .ok x.index ∧
      (bind x.index x.value).runFrom w = (.ok (), w') := by
  induction keys with
  | nil => cases h
  | cons k keys ih =>
    rw [runFrom_tableOffer_cons] at h
    cases hfound : Table.find? k (w.heap.table r).entries with
    | none =>
      rw [hfound] at h
      exact ih h
    | some v =>
      rw [hfound] at h
      obtain ⟨index, w₁, hindex, hrun⟩ := Exec.bind_ok h
      obtain ⟨⟨⟩, w₂, hbind, hrun⟩ := Exec.bind_ok hrun
      cases hrun
      cases hdecoded : (w.heap.table r).indexOf k with
      | error a =>
        rw [hdecoded] at hindex
        cases hindex
      | ok index' =>
        rw [hdecoded] at hindex
        cases hindex
        exact ⟨hfound, rfl, hbind⟩

/-- Values written to variables from left to right: a variable holds its value
unless its slot is written again. -/
theorem writeEach_ok {vals : List Value} (hf : w.HasFrame f)
    (h : ((vars.zip vals).forM fun b => Exec.writeSlot f b.1.slot b.2).runFrom w = (.ok (), w')) :
    w'.heap = w.heap ∧
      (∀ slot, (∀ var ∈ vars, var.slot ≠ slot) →
        (w'.frame f).slots.get slot = (w.frame f).slots.get slot) ∧
      ∀ i var v, vars[i]? = some var → vals[i]? = some v →
        (∀ later ∈ vars.drop (i + 1), later.slot ≠ var.slot) →
        (w'.frame f).slots.get var.slot = some v := by
  induction vars generalizing vals w with
  | nil =>
    cases h
    exact ⟨rfl, fun _ _ => rfl, fun i var v hvar => by cases hvar⟩
  | cons first vars ih =>
    cases vals with
    | nil =>
      cases h
      exact ⟨rfl, fun _ _ => rfl, fun i var v _ hv => by cases hv⟩
    | cons v vals =>
      obtain ⟨⟨⟩, w₁, hfirst, hrest⟩ := Exec.bind_ok h
      obtain ⟨hheap₁, hslots₁⟩ := Exec.writeSlot_ok hfirst
      have hf₁ : w₁.HasFrame f :=
        (World.hasFrame_of_steps ((writeSlot_moves _ _).run hfirst) f).mpr hf
      obtain ⟨hheap, hother, hbound⟩ := ih hf₁ hrest
      refine ⟨hheap.trans hheap₁, fun slot hslot => ?_, fun i var x hvar hx hlater => ?_⟩
      · obtain ⟨hne, hslot⟩ := List.forall_mem_cons.mp hslot
        rw [hother slot hslot, hslots₁ hf, if_neg hne.symm]
      · cases i with
        | zero =>
          cases hvar
          cases hx
          rw [hother _ hlater, hslots₁ hf, if_pos rfl]
        | succ i => exact hbound i var x hvar hx hlater

/-- What the variables of a loop hold when its body is entered for an entry of a
table, where the target has the type `ty`. -/
structure BindsEntry (f : FrameRef) (vars : List Ident) (valueVar : Option Ident) (ty : Ty)
    (r : TableRef) (ρ : Round Visited) : Prop where
  /-- The entry is there. -/
  present : (ρ.entry.heap.table r).contains ρ.visited.index = .ok true
  stored : (ρ.entry.heap.table r).lookup ρ.visited.index = .ok ρ.visited.value
  /-- There is a variable for each component of the index. -/
  arity : (ρ.entry.heap.table r).ty = ty → vars.length = ρ.visited.index.length
  component : ∀ i var v, vars[i]? = some var → ρ.visited.index[i]? = some v →
    var ∉ vars.drop (i + 1) → ρ.holds f var.slot = some v
  value : ∀ var ∈ valueVar, ∀ v ∈ ρ.visited.value, var ∉ vars → ρ.holds f var.slot = some v

/-- Binding an entry where variables that share a slot are one. -/
theorem bindEntry_ok
   (happart : ∀ id ∈ vars ++ valueVar.toList, ∀ id' ∈ vars ++ valueVar.toList,
      id.slot = id'.slot → id = id')
    (hf : w.HasFrame f) (h : (bindEntry f vars valueVar index v).runFrom w = (.ok (), w')) :
    w'.heap = w.heap ∧
      (∀ i var x, vars[i]? = some var → index[i]? = some x → var ∉ vars.drop (i + 1) →
        (w'.frame f).slots.get var.slot = some x) ∧
      ∀ var ∈ valueVar, ∀ x ∈ v, var ∉ vars → (w'.frame f).slots.get var.slot = some x := by
  -- the value is written before the components
  obtain ⟨w₁, hf₁, hheap₁, hvalue, hrest⟩ : ∃ w₁ : World, w₁.HasFrame f ∧ w₁.heap = w.heap ∧
      (∀ var ∈ valueVar, ∀ x ∈ v, (w₁.frame f).slots.get var.slot = some x) ∧
      ((vars.zip index).forM fun b => Exec.writeSlot f b.1.slot b.2).runFrom w₁ = (.ok (), w') := by
    unfold bindEntry at h
    split at h
    · rename_i var x
      obtain ⟨⟨⟩, w₁, hfirst, hrest⟩ := Exec.bind_ok h
      obtain ⟨hheap₁, hslots₁⟩ := Exec.writeSlot_ok hfirst
      refine ⟨w₁, (World.hasFrame_of_steps ((writeSlot_moves _ _).run hfirst) f).mpr hf, hheap₁,
        ?_, hrest⟩
      intro var' hvar' x' hx'
      cases hvar'
      cases hx'
      rw [hslots₁ hf, if_pos rfl]
    · rename_i hnone
      refine ⟨w, hf, rfl, fun var hvar x hx => ?_, h⟩
      cases hvar
      cases hx
      exact absurd rfl (hnone _ _ rfl)
  obtain ⟨hheap, hother, hbound⟩ := writeEach_ok hf₁ hrest
  have hvars : ∀ id ∈ vars, id ∈ vars ++ valueVar.toList := fun _ => List.mem_append_left _
  refine ⟨hheap.trans hheap₁, fun i var x hvar hx hlast => ?_, fun var hvar x hx hfree => ?_⟩
  · refine hbound i var x hvar hx fun later hlater hslot => hlast ?_
    have hmem := hvars var (List.mem_of_getElem? hvar)
    exact happart _ (hvars later (List.mem_of_mem_drop hlater)) _ hmem hslot ▸ hlater
  · rw [hother var.slot fun other hother hslot => hfree ?_]
    · exact hvalue var hvar x hx
    · have hmem : var ∈ vars ++ valueVar.toList :=
        List.mem_append_right _ (Option.mem_toList.mpr hvar)
      exact happart _ (hvars other hother) _ hmem hslot ▸ hother

theorem bindsEntry {fuel : Nat} {body : Stmt}
    {ty : Ty} {keys : List Key} {ρs : List (Round Visited)} {ending : Conclusion}
    (happart : ∀ id ∈ vars ++ valueVar.toList, ∀ id' ∈ vars ++ valueVar.toList,
      id.slot = id'.slot → id = id')
    (hasks : ty.AsksFor vars) (hf : w.HasFrame f) (hkeyed : ∀ r, (w.heap.table r).Keyed)
    (h : (tableSequence r (bindEntry f vars valueVar) (body.exec fuel f)).Trace keys w ρs ending
      w') : ∀ ρ ∈ ρs, BindsEntry f vars valueVar ty r ρ := by
  intro ρ hρ
  have hkept : ∀ r, (ρ.entry.heap.table r).Keyed := ((h.keeps
    (tableOffer_keeps r (bindEntry_keeps fun _ _ => Heap.Durable.writeSlot _))
    fun _ _ => Heap.durable_keyed.exec fuel f body).1 ρ hρ).1 hkeyed
  obtain ⟨p₀, p₁, w₀, hsteps, hoffer⟩ := h.offered
    (tableOffer_keeps r (bindEntry_keeps fun _ _ => writeSlot_moves _))
    (fun _ => exec_moves fuel f body) ρ hρ
  obtain ⟨hfound, hindex, hbind⟩ := tableOffer_some hoffer
  obtain ⟨hheap, hcomponent, hvalue⟩ :=
    bindEntry_ok happart ((World.hasFrame_of_steps hsteps f).mpr hf) hbind
  rw [← hheap] at hfound hindex
  obtain ⟨hkey, hlength⟩ := (hkept r).indexOf hfound hindex
  refine ⟨?_, ?_, fun hty => ?_, hcomponent, hvalue⟩
  · unfold Table.contains
    rw [hkey]
    change Except.ok (Option.isSome _) = _
    rw [hfound]
    rfl
  · unfold Table.lookup
    rw [hkey]
    change Except.ok (Option.join _) = _
    rw [hfound]
    rfl
  · rw [hlength]
    rw [← hty] at hasks
    unfold Table.ty at hasks
    split at hasks <;> exact hasks

end Stmt

/-- In a unit that loads, a loop over a table enters its body with the visited
index in the loop variables and the value stored under it in the value variable,
save where a name stands twice in its head: then the last one counts, and the value
comes before all. The tables that histories bring about are such that every index
leads back to its entry. -/
theorem Script.table_loop_binds {u : Doc.Unit} {firstStmt : StmtId} {s : Script}
    (hload : load u firstStmt = .ok s) {i : StmtInfo} {vars : List Ident}
    {valueVar : Option Ident} {target : Expr} {body : Stmt}
    (hloop : Stmt.for i vars valueVar target body ∈ s.body.preorder) (fuel : Nat) {f : FrameRef}
    {w w₁ : World} {r : TableRef} (hf : w.HasFrame f)
    (htarget : (target.eval f).runFrom ((Exec.visit i).leaves w) = (.ok (.table r), w₁)) :
    (∃ ρs ending w',
      let q := Stmt.tableSequence r (Stmt.bindEntry f vars valueVar) (body.exec fuel f)
      q.Trace (w₁.heap.table r).keys ((Exec.modifyTable r Table.enter).leaves w₁) ρs ending w' ∧
        ((Stmt.for i vars valueVar target body).exec fuel f).runFrom w =
          Stmt.ended Outcome.afterLoop (q.result .next ρs w' ending) ∧
        ((∀ r, (w.heap.table r).Keyed) →
          ∀ ρ ∈ ρs, Stmt.BindsEntry f vars valueVar target.ty r ρ)) ∧
    ∀ P now limits w₀ (op : HostOp), World.EverIn P (.start now limits) w₀ →
      op.Executes fuel w₀ f (.for i vars valueVar target body) w →
      ∀ r, (w.heap.table r).Keyed := by
  constructor
  · obtain ⟨ρs, ending, w', htrace, hrun⟩ :=
      Stmt.exists_table_trace valueVar body fuel vars htarget
    refine ⟨ρs, ending, w', htrace, hrun, fun hkeyed => ?_⟩
    have hentered : ((Exec.modifyTable r Table.enter).leaves w₁).HasFrame f :=
      (World.hasFrame_of_steps
        ((Exec.Moves.of_local (Expr.eval_local f target)).steps htarget) f).mpr hf
    have hkeyed₁ : ∀ r, (w₁.heap.table r).Keyed :=
      (Heap.durable_keyed.eval target).run htarget hkeyed
    have hbuilt : Stmt.for i vars valueVar target body ∈ (build u firstStmt).body.preorder :=
      (load_eq_ok_iff.mp hload).1 ▸ hloop
    exact Stmt.bindsEntry (fun _ hid _ hid' => eq_of_slot hbuilt hid hid')
      (asksFor_of_load hload hloop) hentered (Heap.durable_keyed.table r hkeyed₁ .enter) htrace
  · intro P now limits w₀ op hever hexec
    exact Heap.durable_keyed.executes hever hexec

/-- A table with one entry and a loop that returns the value of the first. -/
def firstValue : Doc.Unit where
  name := "first-value"
  kind := .function none
  locals := [⟨"t", .table [.count, .string] .bool, none, .unknown⟩]
  body := .list
    [.expr (.assign (.index (.name "t") [.const (.count 7), .const (.str "a")])
        (.const (.bool true))),
      .for [⟨"n", none, .unknown⟩, ⟨"s", none, .unknown⟩] (some ⟨"b", none, .unknown⟩)
        (.name "t") (.return (some (.name "b")))]

/-- The loop of `firstValue`, executed once more after a run, binds each part of
the entry to a variable of its own. -/
theorem Script.table_loop_binds_firstValue :
    ∃ (s : Script) (i : StmtInfo) (n str b : Ident) (target : Expr) (body : Stmt) (w w₁ : World)
      (ρs : List (Round Stmt.Visited)),
      load firstValue 0 = .ok s ∧ Stmt.for i [n, str] (some b) target body ∈ s.body.preorder ∧
      [n, str, b].Nodup ∧ w.HasFrame ⟨0⟩ ∧
      (target.eval ⟨0⟩).runFrom ((Exec.visit i).leaves w) = (.ok (.table ⟨0⟩), w₁) ∧
      (∀ r, (w.heap.table r).Keyed) ∧ ρs ≠ [] ∧
      ∀ ρ ∈ ρs, Stmt.BindsEntry ⟨0⟩ [n, str] (some b) target.ty ⟨0⟩ ρ := by
  let P : FrameRef → Stmt → Prop := fun _ _ => True
  let w₀ := ((HostOp.newFrame 4 none).perform 0).leaves (.start default default)
  let w := ((HostOp.run (build firstValue 0) ⟨0⟩).perform 1).leaves w₀
  have hload : load firstValue 0 = .ok (build firstValue 0) :=
    load_eq_ok_iff.mpr ⟨rfl, by decide +kernel⟩
  have hloop : ∃ loop ∈ (build firstValue 0).body.preorder,
      loop.head? = some ([⟨"n", 1, .count, none⟩, ⟨"s", 2, .string, none⟩],
        some ⟨"b", 3, .bool, none⟩) ∧
      (loop.ranges ⟨0⟩ w).map Prod.fst = some (.table ⟨0⟩) ∧
      ((loop.exec 1 ⟨0⟩).runFrom w).1 = .ok ⟨some (.bool true), .return⟩ := by decide +kernel
  have hframe : w.HasFrame ⟨0⟩ := by decide +kernel
  have hever : World.EverIn P (.start default default) w := .ran (build firstValue 0) 4 1
  clear_value w
  obtain ⟨s, hs⟩ : ∃ s, build firstValue 0 = s := ⟨_, rfl⟩
  rw [hs] at hload hloop
  obtain ⟨loop, hmem, hhead, hranges, hanswer⟩ := hloop
  cases loop with
  | «for» i vars valueVar target body =>
    cases hhead
    obtain ⟨⟨v, w₁⟩, hrange, rfl⟩ := Option.map_eq_some_iff.mp hranges
    have htarget := Stmt.ranges_eq_some hrange
    obtain ⟨⟨ρs, ending, w', -, hrun, hbinds⟩, hkeyed⟩ :=
      table_loop_binds hload hmem 1 hframe htarget
    have hw := hkeyed P default default w (.run { s with body := _ } ⟨0⟩) hever (.single .run)
    refine ⟨s, i, _, _, _, target, body, w, w₁, ρs, hload, hmem, by decide, hframe, htarget, hw, ?_,
      hbinds hw⟩
    rw [hrun] at hanswer
    exact Stmt.ne_nil_of_signal hanswer (by decide)
  | _ => cases hhead

/-- A loop whose head names `k` twice, over a table with 10 under 1. -/
def sharedName : Doc.Unit where
  name := "shared-name"
  kind := .toplevel
  locals := [⟨"t", .table [.count] .count, none, .unknown⟩]
  body := .list
    [.expr (.assign (.index (.name "t") [.const (.count 1)]) (.const (.count 10))),
      .for [⟨"k", none, .unknown⟩] (some ⟨"k", none, .unknown⟩) (.name "t") (.print [.name "k"])]

/-- The unit loads. In its loop the value variable is the loop variable, so the
body sees the index, 1, and not the value that is stored under it. -/
theorem Script.value_variable_overwritten :
    ∃ (s : Script) (k : Ident) (w : World), load sharedName 0 = .ok s ∧
      (∃ loop ∈ s.body.preorder, loop.head? = some ([k], some k)) ∧
      (s.run 1 ⟨0⟩).runFrom ((World.start default default).addFrame s.frameSize none).2 =
        (.ok .next, w) ∧
      w.output = #["1"] ∧ (w.frame ⟨0⟩).slots.get k.slot = some (.count 1) ∧
      (w.heap.table ⟨0⟩).lookup [.count 1] = .ok (some (.count 10)) := by
  let s := build sharedName 0
  let w := ((World.start default default).addFrame s.frameSize none).2
  have hload : load sharedName 0 = .ok s := load_eq_ok_iff.mpr ⟨rfl, by decide +kernel⟩
  have hanswer : ((s.run 1 ⟨0⟩).runFrom w).1 = .ok .next := by decide +kernel
  exact ⟨s, ⟨"k", 1, .count, none⟩, (s.run 1 ⟨0⟩).leaves w, hload, by decide +kernel,
    Exec.runFrom_of_answer hanswer, by decide +kernel, by decide +kernel, by decide +kernel⟩

end Vigil
