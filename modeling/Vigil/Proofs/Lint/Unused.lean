import Vigil.Proofs.Exec.Slots
import Vigil.Proofs.Exec.Unread
import Vigil.Proofs.Walk.Looks

/-!
# Vigil.Proofs.Lint.Unused — variables that make no difference

A variable is reported as unused when the walk of the rule meets no expression
that names its slot, and then there is none (`Stmt.not_mem_namedSlots`). So what
the slot holds makes no difference. Take two engines that are the same but for
this slot of a frame. The unit runs alike in both. If the frame belongs to the
unit, all that waits in it comes from the unit and does not name the slot either,
and whatever the host does after that, passes among it, is answered alike and
leaves engines that are the same but for the slot (`Script.unused_variable_unread`).
-/

namespace Vigil

open Exec (Simulates Keeps)
open Stmt (Avoids)

/-- Slots named in what a trigger holds. -/
def Captured.namedSlots (c : Captured) : List Nat :=
  c.cond.idents.map Ident.slot ++ c.body.namedSlots ++ c.timeoutBody.toList.flatMap Stmt.namedSlots

/-- A `when` names what its trigger will, and what its timeout names. -/
theorem Captured.mem_namedSlots_when (c : Captured) (i : StmtInfo) (timeout : Option Expr)
    (isReturn : Bool) (k : Nat) :
    k ∈ (Stmt.when i c.cond c.body timeout c.timeoutBody isReturn).namedSlots ↔
      k ∈ c.namedSlots ∨ ∃ id ∈ Expr.identsOf timeout.toList, id.slot = k := by
  obtain ⟨cond, body, timeoutBody, frame⟩ := c
  have hpre := Stmt.preorder_eq (.when i cond body timeout timeoutBody isReturn)
  unfold Stmt.namedSlots Captured.namedSlots
  rw [hpre]
  cases timeoutBody <;>
    simp [Stmt.exprs, Stmt.children, Stmt.forest, Expr.identsOf, Stmt.namedSlots] <;> grind

namespace World

variable {f : FrameRef} {k : Nat} {w v : World}

/-- What waits in the frame `f` does not name the slot `k`. -/
def WaitsWithout (f : FrameRef) (k : Nat) (w : World) : Prop :=
  ∀ t c, (w.trigger t).captured = some c → c.frame = f → k ∉ c.namedSlots

theorem closed_avoids (f : FrameRef) (k : Nat) : Closed (Avoids f k) := by
  intro g s hs t ht
  refine hs.below ?_
  exact List.Subset.trans (Stmt.preorder_subset_forest (Stmt.entered_subset s ht))
    (Stmt.forest_children_subset s)

/-- The two engines, and the condition on what waits. -/
def Sparing (f : FrameRef) (k : Nat) (w v : World) : Prop :=
  SameBut f k w v ∧ w.Confined (Avoids f k)

theorem SameBut.clerical (h : SameBut f k w v) {g : World → World} (hg : Clerical g) :
    SameBut f k (g w) (g v) := by
  have hframes : (g w).frames = w.frames := by
    obtain ⟨_, _, _, _, _, _, _, heq⟩ := hg.kept w
    rw [heq]
  refine h.change (fun s => ?_) ?_
  · have hblind := hg.blind w (w.withSlots f s).frames
    unfold withSlots World.modifyFrame at hblind ⊢
    rw [hblind, hframes]
  · unfold frame
    rw [hframes]

theorem push_modify {α : Type} {xs : Array α} {i : Nat} (hi : i < xs.size) (g : α → α) (x : α) :
    (xs.modify i g).push x = (xs.push x).modify i g := by
  refine Array.ext (by simp) fun j h₁ h₂ => ?_
  simp only [Array.getElem_push, Array.getElem_modify, Array.size_modify]
  grind

theorem SameBut.addFrame (h : SameBut f k w v) (size : Nat) (session : Option SessionId) :
    SameBut f k (w.addFrame size session).2 (v.addFrame size session).2 := by
  by_cases hf : w.HasFrame f
  · unfold HasFrame at hf
    refine h.change (c := fun u => (u.addFrame size session).2) (fun s => ?_) ?_
    · unfold World.addFrame withSlots World.modifyFrame
      rw [← push_modify hf]
    · unfold World.addFrame frame
      rw [Array.getElem?_push_lt hf, Array.getElem?_eq_getElem hf]
  · rw [h.eq_of_not_hasFrame hf]
    exact .refl f k _

/-- The condition in terms of where what waits comes from. -/
theorem confined_avoids : w.Confined (Avoids f k) ↔ w.WaitsWithout f k := by
  constructor
  · intro h t c hc hframe hk
    obtain ⟨i, timeout, isReturn, hwhen⟩ := h.held t c hc
    exact hwhen hframe ((c.mem_namedSlots_when i timeout isReturn k).mpr (.inl hk))
  · intro h
    refine ⟨fun i time _ => ⟨f, .null ⟨i, .unknown⟩, fun _ hk => ?_, rfl⟩, fun t c hc => ?_⟩
    · simp [Stmt.namedSlots, Stmt.preorder, Stmt.exprs, Expr.identsOf] at hk
    · refine ⟨⟨0, .unknown⟩, none, false, fun hframe hk => ?_⟩
      rcases (c.mem_namedSlots_when _ _ _ k).mp hk with hk | ⟨id, hid, -⟩
      · exact h t c hc hframe hk
      · simp [Expr.identsOf] at hid

/-- What waits in a frame names no slot that the units run in it do not name. -/
theorem EverIn.waitsWithout {now : Instant} {limits : Limits}
    (h : EverIn (Avoids f k) (.start now limits) w) : w.WaitsWithout f k :=
  confined_avoids.mp (h.confined (closed_avoids f k))

theorem sparing_of {α : Type} {x : Exec α} (hx : Simulates (SameBut f k) x x)
    (hkeeps : Keeps (Stays (Avoids f k)) x) : Simulates (Sparing f k) x x := by
  rintro w v ⟨hsame, hconfined⟩
  obtain ⟨hanswer, hleaves⟩ := hx w v hsame
  exact ⟨hanswer, hleaves, hkeeps w hconfined⟩

theorem exec_sparing (fuel : Nat) {g : FrameRef} {s : Stmt} (hs : Avoids f k g s) :
    Simulates (Sparing f k) (s.exec fuel g) (s.exec fuel g) :=
  sparing_of (Stmt.exec_unread fuel hs) (exec_confined (closed_avoids f k) fuel hs)

theorem parallel_sparing : Parallel (Sparing f k) where
  frames h := h.1.frames
  clerical hg h := ⟨h.1.clerical hg, h.2.clerical hg⟩
  note he h := by
    refine ⟨?_, h.2.note he⟩
    exact h.1.change (c := fun u => { u with journal := _ :: u.journal }) (fun _ => rfl) rfl
  cond h hc := by
    obtain ⟨i, timeout, isReturn, hwhen⟩ := h.2.held _ _ hc
    exact sparing_of (hwhen.eval List.mem_cons_self) (stays_of_local (Expr.eval_local _ _))
  body h hc hb fuel := exec_sparing fuel (h.2.body (closed_avoids f k) hc hb)

/-- An operation is answered alike, unless it runs in the frame a unit that names
the slot. -/
theorem perform_sparing (fuel : Nat) {op : HostOp} (hop : op.RunsIn (Avoids f k)) :
    Simulates (Sparing f k) (op.perform fuel) (op.perform fuel) := by
  refine parallel_sparing.scheduled.perform op ?_ ?_ ?_
  · rintro size session rfl
    refine sparing_of (.modify fun _ _ h => h.addFrame size session) ?_
    exact (invariant_confined (closed_avoids f k)).perform fuel hop
  · intro g slot x _
    exact sparing_of (Stmt.writeSlot_sameBut g slot x) (stays_of_local (.writeSlot slot x))
  · rintro script g rfl
    exact exec_sparing fuel hop

/-- Perform operations one after the other, each with its budget, and whatever
came of those before: their answers, and the engine they leave. -/
def follow : List (HostOp × Nat) → World → List (Except Stop Unit) × World
  | [], w => ([], w)
  | o :: rest, w =>
    let next := (o.1.perform o.2).runFrom w
    let after := follow rest next.2
    (next.1 :: after.1, after.2)

theorem follow_sparing {ops : List (HostOp × Nat)} (hops : ∀ o ∈ ops, o.1.RunsIn (Avoids f k))
    (h : Sparing f k w v) :
    (follow ops w).1 = (follow ops v).1 ∧ Sparing f k (follow ops w).2 (follow ops v).2 := by
  induction ops generalizing w v with
  | nil => exact ⟨rfl, h⟩
  | cons o rest ih =>
    obtain ⟨hop, hrest⟩ := List.forall_mem_cons.mp hops
    obtain ⟨hanswer, hleaves⟩ := perform_sparing o.2 hop w v h
    obtain ⟨hanswers, hafter⟩ := ih hrest hleaves
    refine ⟨?_, hafter⟩
    rw [follow, follow]
    show _ :: _ = _ :: _
    rw [hanswer]
    exact congrArg _ hanswers

end World

/-- All that waits in a frame of the unit comes from the unit. -/
theorem Script.Occupies.waitsWithout {script : Script} {f : FrameRef} {w : World} {k : Nat}
    (h : script.Occupies f w) (hk : k ∉ script.body.namedSlots) : w.WaitsWithout f k := by
  obtain ⟨now, limits, hever⟩ := h.everIn
  have hbody : Avoids f k f script.body := fun _ => hk
  exact (hever.mono fun _ _ ht hg => hbody.below (Stmt.preorder_subset (ht hg)) rfl).waitsWithout

/-- A unit with two loops over one variable that it never names, the second of
them in the body of a `when`. -/
def idleLoops : Doc.Unit :=
  let n : Doc.Expr := .name "n"
  let one : Doc.Expr := .const (.count 1)
  let loop (ty? : Option Ty) (text : String) (row : Nat) : Doc.Stmt :=
    .for [⟨"letter", ty?, .unknown⟩] none (.const (.str text)) (.print [n]) ⟨row, 1, row, 9⟩
  ⟨"idle", .toplevel, none, [⟨"n", .count, none, .unknown⟩],
    .list [.expr (.assign n one), loop none "z" 1,
      .when (.binary .eq n one) (loop (some .string) "ab" 2) none false]⟩

end Vigil
