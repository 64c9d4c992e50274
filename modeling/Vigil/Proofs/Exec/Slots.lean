import Vigil.Proofs.Build.Heads
import Vigil.Proofs.Exec.Purity
import Vigil.Proofs.Flow.Traces
import Vigil.Proofs.Trigger.Confined

/-!
# Vigil.Proofs.Exec.Slots — which slots executions write

A statement writes slots of its frame through the identifiers that stand in it,
and no other way (`Stmt.exec_writtenBy`). In a built unit each of these has a
slot below the size of its frames, and two with the same slot are one. So the
frames of a unit keep their size through all runs and passes, and each slot is
written through one identifier only (`Script.slots_keep_to_idents`).
-/

namespace Vigil

open Exec (Keeps)
open Relation (ReflTransGen)

variable {f : FrameRef}

/-! ## Rows of slots -/

namespace Slots

/-- A slot is filled or emptied through one of the identifiers. -/
inductive WriteBy (ids : List Ident) (a : Slots) : Slots → Prop where
  | set {id : Ident} (hid : id ∈ ids) {v : Value} {b : Slots} (h : a.set id.slot v = .ok b) :
      WriteBy ids a b
  | clear {id : Ident} (hid : id ∈ ids) : WriteBy ids a (a.clear id.slot)

variable {ids : List Ident} {n : Nat} {a b : Slots}

/-- A write to a slot that is there does not change the size. -/
theorem WriteBy.size (h : WriteBy ids a b) (hids : ∀ id ∈ ids, id.slot < n) (hn : n ≤ a.size) :
    b.size = a.size := by
  cases h with
  | @set id hid v b h =>
    have hslot : id.slot < a.size := Nat.lt_of_lt_of_le (hids id hid) hn
    rw [Slots.set, if_pos hslot] at h
    cases h
    exact Array.size_setIfInBounds
  | clear hid => exact Array.size_setIfInBounds

theorem size_of_writes (h : ReflTransGen (WriteBy ids) a b) (hids : ∀ id ∈ ids, id.slot < n)
    (hn : n ≤ a.size) : b.size = a.size := by
  induction h with
  | refl => rfl
  | tail _ hstep ih => exact (hstep.size hids (ih ▸ hn)).trans ih

theorem size_le_of_set {i : Nat} {v : Value} (h : a.set i v = .ok b) : a.size ≤ b.size := by
  unfold Slots.set at h
  split at h
  · cases h
    rw [Array.size_setIfInBounds]
  · split at h <;> cases h
    rw [Array.size_push, Array.size_append]
    omega

end Slots

/-! ## Relations that see slots only -/

/-- The relation sees nothing of the world but the slots of frames. -/
def SeesSlots (R : World → World → Prop) : Prop :=
  ∀ w w', (∀ g, (w'.frame g).slots = (w.frame g).slots) → R w w'

namespace SeesSlots

variable {R : World → World → Prop} {f : FrameRef}

theorem overlooks (hR : SeesSlots R) : Overlooks R f where
  visit _ _ := hR _ _ fun _ => rfl
  next w i := hR _ _ fun g => World.frame_modifyFrame_field Frame.slots
    (g := fun fr => { fr with nextStmt := some i }) (fun _ => rfl) w f g
  iterate _ _ _ := hR _ _ fun _ => rfl
  install w c deadline isReturn span :=
    hR _ _ (World.SameData.of_install w c deadline isReturn span).slots

theorem setHeap (hR : SeesSlots R) (h : Heap) : Keeps R (Exec.setHeap h) :=
  fun _ => hR _ _ fun _ => rfl

variable [IsPreorder World R]

theorem storeElement (hR : SeesSlots R) (c : Value) (index : List Value) (v : Value) :
    Keeps R (Exec.storeElement c index v) := by
  unfold Exec.storeElement
  split
  · exact .bind .heap fun _ => .bind (.ofFault _) fun _ => hR.setHeap _
  · exact .bind (.vectorPosition _) fun _ => .bind .heap fun _ => .bind (.ofAbort _) fun _ =>
      hR.setHeap _
  · exact .bind (.typeOf _) fun _ => .mismatch _

theorem addElement (hR : SeesSlots R) (c : Value) (index : List Value) :
    Keeps R (Exec.addElement c index) := by
  unfold Exec.addElement
  split
  · exact .bind .heap fun _ => .bind (.ofFault _) fun _ => hR.setHeap _
  · exact .mismatch _

theorem deleteElement (hR : SeesSlots R) (c : Value) (index : List Value) :
    Keeps R (Exec.deleteElement c index) := by
  unfold Exec.deleteElement
  split
  · exact .bind .heap fun _ => .bind (.ofFault _) fun _ => hR.setHeap _
  · exact .bind (.vectorPosition _) fun _ => .bind .heap fun _ => hR.setHeap _
  · exact .bind (.typeOf _) fun _ => .mismatch _

theorem printLine (hR : SeesSlots R) (vals : List Value) : Keeps R (Stmt.printLine vals) :=
  .bind .heap fun _ => .bind (.ofStop _) fun _ _ => hR _ _ fun _ => rfl

end SeesSlots

/-! ## Expressions -/

namespace Expr

mutual

/-- The slots that an expression writes are those of identifiers in it. -/
theorem slots_of_writes : (e : Expr) → ∀ i, .slot i ∈ e.writes → i ∈ e.idents.map Ident.slot
  | .const .., _, h | .name .., _, h | .error _, _, h => by
    rw [writes] at h
    cases h
  | .unary _ e _, i, h | .size e _, i, h => by
    rw [writes] at h
    exact slots_of_writes e i h
  | .binary _ l r _, i, h => by
    rw [writes, List.mem_append] at h
    rw [idents, List.map_append, List.mem_append]
    exact h.imp (slots_of_writes l i) (slots_of_writes r i)
  | .assign target value _, i, h => by
    rw [writes, List.mem_append] at h
    rw [idents, List.map_append, List.mem_append]
    exact h.symm.imp (slots_of_writesAt target i) (slots_of_writes value i)
  | .index t is _, i, h => by
    rw [writes, List.mem_append] at h
    rw [idents, List.map_append, List.mem_append]
    exact h.imp (slots_of_writes t i) (slots_of_writesList is i)
  | .member es t _, i, h => by
    rw [writes, List.mem_append] at h
    rw [idents, List.map_append, List.mem_append]
    exact h.symm.imp (slots_of_writesList es i) (slots_of_writes t i)

theorem slots_of_writesList :
    (es : List Expr) → ∀ i, .slot i ∈ writesList es → i ∈ (identsOf es).map Ident.slot
  | [], _, h => by
    rw [writesList] at h
    cases h
  | e :: es, i, h => by
    rw [writesList, List.mem_append] at h
    rw [identsOf, List.map_append, List.mem_append]
    exact h.imp (slots_of_writes e i) (slots_of_writesList es i)

theorem slots_of_writesAt :
    (e : Expr) → ∀ i, .slot i ∈ e.writesAt → i ∈ e.idents.map Ident.slot
  | .name id _, i, h => by
    rw [writesAt] at h
    cases List.mem_singleton.mp h
    exact List.mem_singleton_self _
  | .index t is _, i, h => by
    rw [writesAt, List.mem_append, List.mem_append] at h
    rw [idents, List.map_append, List.mem_append]
    rcases h with h | h
    · exact h.imp (slots_of_writes t i) (slots_of_writesList is i)
    · cases List.mem_singleton.mp h
  | .const .., _, h | .unary .., _, h | .binary .., _, h | .assign .., _, h | .member .., _, h
  | .size .., _, h | .error _, _, h => by simp [writesAt] at h

end

end Expr

/-- Filling and emptying the slots of the identifiers keeps to the relation. -/
structure Writable (R : World → World → Prop) (f : FrameRef) (ids : List Ident) : Prop where
  set : ∀ id ∈ ids, ∀ v, Keeps R (Exec.writeSlot f id.slot v)
  clear : ∀ id ∈ ids, Keeps R (Exec.clearSlot f id.slot)

theorem Writable.subset {R : World → World → Prop} {ids ids' : List Ident} (h : Writable R f ids)
    (hsub : ids' ⊆ ids) : Writable R f ids' :=
  ⟨fun id hid => h.set id (hsub hid), fun id hid => h.clear id (hsub hid)⟩

section

variable {R : World → World → Prop} [IsPreorder World R] {f : FrameRef}

namespace Expr

variable {e : Expr}

theorem eval_writes (hR : SeesSlots R) (h : Writable R f e.idents) : Keeps R (e.eval f) := by
  refine eval_keeps e fun p hp => ?_
  cases p with
  | slot i =>
    obtain ⟨id, hid, rfl⟩ := List.mem_map.mp (slots_of_writes e i hp)
    exact h.set id hid
  | element => exact hR.storeElement

theorem evalList_writes (hR : SeesSlots R) {es : List Expr} (h : Writable R f (identsOf es)) :
    Keeps R (evalList f es) := by
  refine evalList_keeps es fun p hp => ?_
  cases p with
  | slot i =>
    obtain ⟨id, hid, rfl⟩ := List.mem_map.mp (slots_of_writesList es i hp)
    exact h.set id hid
  | element => exact hR.storeElement

/-- What an edit of an element evaluates first. -/
theorem element_writes (hR : SeesSlots R) {t : Expr} {is : List Expr} {info : ExprInfo}
    (h : Writable R f (Expr.index t is info).idents) {k : Value → List Value → Exec Unit}
    (hk : ∀ c index, Keeps R (k c index)) :
    Keeps R (do
      let c ← t.eval f
      let index ← evalList f is
      k c index) := by
  rw [idents] at h
  exact .bind (eval_writes hR (h.subset (List.subset_append_left _ _))) fun c =>
    .bind (evalList_writes hR (h.subset (List.subset_append_right _ _))) fun index => hk c index

theorem addTo_writes (hR : SeesSlots R) (h : Writable R f e.idents) : Keeps R (e.addTo f) := by
  cases e with
  | index t is info => exact element_writes hR h hR.addElement
  | _ => exact .mismatch _

theorem deleteFrom_writes (hR : SeesSlots R) (h : Writable R f e.idents) :
    Keeps R (e.deleteFrom f) := by
  cases e with
  | index t is info => exact element_writes hR h hR.deleteElement
  | _ => exact .mismatch _

end Expr

/-! ## Statements -/

namespace Stmt

variable {s : Stmt}

theorem giveFresh_writes (hR : SeesSlots R) {ids : List Ident} (h : Writable R f ids) :
    Keeps R (giveFresh f ids) := by
  induction ids with
  | nil => exact .pure _
  | cons id ids ih =>
    have hrest := ih (h.subset (List.subset_cons_self _ _))
    rw [giveFresh]
    refine .bind .heap fun heap => ?_
    split
    · exact .bind (hR.setHeap _) fun _ => .bind (h.set id List.mem_cons_self _) fun _ => hrest
    · exact .bind (h.clear id List.mem_cons_self) fun _ => hrest

omit [IsPreorder World R] in
theorem writable_of_mem_exprs (h : Writable R f s.ownIdents) :
    ∀ e ∈ s.exprs, Writable R f e.idents := by
  intro e he
  refine h.subset fun id hid => List.mem_append_left _ (List.mem_append_left _ ?_)
  rw [Expr.identsOf_eq]
  exact List.mem_flatMap.mpr ⟨e, he, hid⟩

theorem binds_subset_ownIdents (s : Stmt) : s.binds ⊆ s.ownIdents := by
  intro id hid
  cases s with
  | «for» i vars valueVar target body =>
    refine List.mem_append_left _ (List.mem_append_right _ ?_)
    rwa [introduced_for]
  | switch => exact List.mem_append_right _ hid
  | _ => cases hid

/-- A statement keeps to a relation between slots when its parts do, and filling
and emptying the slots of its own identifiers does. -/
theorem act_writes (hR : SeesSlots R) {fuel : Nat} (h : Writable R f s.ownIdents)
    (hparts : ∀ t ∈ s.parts, Keeps R (exec fuel f t)) : Keeps R (act fuel f s) := by
  have heval : ∀ e ∈ s.exprs, Keeps R (e.eval f) := fun e he =>
    Expr.eval_writes hR (writable_of_mem_exprs h e he)
  have hexprs : Keeps R (Expr.evalList f s.exprs) :=
    Expr.evalList_writes hR (h.subset fun _ hid =>
      List.mem_append_left _ (List.mem_append_left _ hid))
  refine Keeps.sequential.act (fun i w => hR.overlooks.next w i)
    (fun e he => heval e (mem_exprs_of_operand he))
    (fun id hid => h.set id (s.binds_subset_ownIdents hid)) (fun r _ _ _ hw hb => ?_)
    (fun hown => ?_) hparts
  · exact Keeps.sequential.overTable (fun _ _ w => hR _ _ fun _ => rfl) hw hb
  cases s with
  | print i args =>
    rw [act]
    exact .bind hexprs fun _ => .bind (hR.printLine _) fun _ => .pure _
  | event i name args =>
    rw [act]
    exact .bind hexprs fun _ => .bind (fun _ => hR _ _ fun _ => rfl) fun _ => .pure _
  | add i target =>
    rw [act]
    exact .bind (Expr.addTo_writes hR (writable_of_mem_exprs h _ List.mem_cons_self)) fun _ =>
      .pure _
  | delete i target =>
    rw [act]
    exact .bind (Expr.deleteFrom_writes hR (writable_of_mem_exprs h _ List.mem_cons_self)) fun _ =>
      .pure _
  | init i idents =>
    rw [act]
    exact .bind (giveFresh_writes hR (h.subset (List.subset_append_right _ _))) fun _ => .pure _
  | «when» i test body timeout timeoutBody isReturn =>
    rw [act]
    refine .bind (.bind (deadline_keeps fun e he => ?_) fun d => ?_) fun _ => .pure _
    · exact heval e (List.mem_cons_of_mem _ (Option.mem_toList.mpr he))
    · exact fun w => hR.overlooks.install (f := f) w _ d isReturn i.span
  | _ => simp [tag, ownWork] at hown

theorem allIdents_subset {t : Stmt} (h : t ∈ s.children) : t.allIdents ⊆ s.allIdents := by
  intro id hid
  obtain ⟨u, hu, hid⟩ := List.mem_flatMap.mp hid
  exact List.mem_flatMap.mpr
    ⟨u, forest_children_subset s (preorder_subset_forest h hu), hid⟩

theorem ownIdents_subset (s : Stmt) : s.ownIdents ⊆ s.allIdents := fun _ hid =>
  List.mem_flatMap.mpr ⟨s, s.self_mem_preorder, hid⟩

/-- A statement writes slots through its identifiers and in no other way. -/
theorem exec_writes (hR : SeesSlots R) (fuel : Nat) (s : Stmt) (h : Writable R f s.allIdents) :
    Keeps R (exec fuel f s) := by
  induction s using tree_induction with
  | h s ih =>
    refine exec_keeps_of_act hR.overlooks ?_
    refine act_writes hR (h.subset s.ownIdents_subset) fun t ht => ?_
    have hchild := s.parts_subset_children ht
    exact ih t hchild (h.subset (allIdents_subset hchild))

end Stmt

end

/-! ## Operations -/

namespace World

variable {n : Nat} {op : HostOp}

/-- The slots of the frame `f` change by writes through the identifiers. -/
def WrittenBy (f : FrameRef) (ids : List Ident) (w w' : World) : Prop :=
  ReflTransGen (Slots.WriteBy ids) (w.frame f).slots (w'.frame f).slots

variable {f g : FrameRef} {ids : List Ident} {w w' : World} {fuel : Nat}

instance : IsPreorder World (WrittenBy f ids) where
  refl _ := .refl
  trans _ _ _ h h' := h.trans h'

theorem seesSlots_writtenBy : SeesSlots (WrittenBy f ids) := by
  intro w w' h
  unfold WrittenBy
  rw [h]

/-- Slots of other frames may be written in any way. -/
theorem writable_of_ne (hg : g ≠ f) (ids' : List Ident) : Writable (WrittenBy f ids) g ids' := by
  have hother : ∀ (w : World) (k : Frame → Frame), WrittenBy f ids w (w.modifyFrame g k) := by
    intro w k
    unfold WrittenBy
    rw [frame_modifyFrame_of_ne hg.symm]
  constructor
  · intro id _ v w
    unfold Exec.leaves
    rw [Exec.runFrom_writeSlot]
    cases (w.frame g).slots.set id.slot v with
    | error a => exact .refl
    | ok slots => exact hother w _
  · exact fun id _ w => hother w _

theorem writtenBy_modifyFrame {k : Slots → Slots} (hk : Slots.WriteBy ids (w.frame f).slots
    (k (w.frame f).slots)) :
    WrittenBy f ids w (w.modifyFrame f fun fr => { fr with slots := k fr.slots }) := by
  unfold WrittenBy
  by_cases hf : w.HasFrame f
  · rw [frame_modifyFrame_self hf]
    exact .single hk
  · rw [modifyFrame_of_not_hasFrame hf]

theorem writable_self : Writable (WrittenBy f ids) f ids := by
  constructor
  · intro id hid v w
    unfold Exec.leaves
    rw [Exec.runFrom_writeSlot]
    cases hset : (w.frame f).slots.set id.slot v with
    | error a => exact .refl
    | ok slots => exact writtenBy_modifyFrame (k := fun _ => slots) (.set hid hset)
  · exact fun id hid w => writtenBy_modifyFrame (k := (·.clear id.slot)) (.clear hid)

/-- Whatever runs in the frame `f` is a statement of `s`. -/
def OnlyIn (f : FrameRef) (s : Stmt) : FrameRef → Stmt → Prop := fun g t => g = f → t ∈ s.preorder

theorem closed_onlyIn (f : FrameRef) (s : Stmt) : Closed (OnlyIn f s) := fun _ t ht _ hu hg =>
  Stmt.children_subset (ht hg) (t.entered_subset hu)

variable {s t : Stmt}

theorem OnlyIn.writable (h : OnlyIn f s g t) :
    Writable (WrittenBy f s.allIdents) g t.allIdents := by
  by_cases hg : g = f
  · subst hg
    refine writable_self.subset fun id hid => ?_
    obtain ⟨u, hu, hid⟩ := List.mem_flatMap.mp hid
    exact List.mem_flatMap.mpr ⟨u, Stmt.preorder_subset (h rfl) hu, hid⟩
  · exact writable_of_ne hg _

/-- A frame that statements of `s` only run in, as it is since `w₀`. -/
structure Kept (f : FrameRef) (s : Stmt) (w₀ w : World) : Prop where
  confined : w.Confined (OnlyIn f s)
  hasFrame : w.HasFrame f
  written : WrittenBy f s.allIdents w₀ w

variable {w₀ : World}

theorem Kept.of_frames (h : Kept f s w₀ w) (hframes : w'.frames = w.frames)
    (hconfined : w'.Confined (OnlyIn f s)) : Kept f s w₀ w' := by
  have hframe : w'.frame f = w.frame f := by
    unfold frame
    rw [hframes]
  refine ⟨hconfined, ?_, ?_⟩
  · unfold HasFrame
    rw [hframes]
    exact h.hasFrame
  · unfold WrittenBy
    rw [hframe]
    exact h.written

/-- What runs in a frame, given what it is confined to and what it writes. -/
theorem kept_of_keeps {α : Type} {x : Exec α} (hstays : Keeps (Stays (OnlyIn f s)) x)
    (hmoves : Exec.Moves g x) (hwrites : Keeps (WrittenBy f s.allIdents) x) :
    Keeps (fun w w' => Kept f s w₀ w → Kept f s w₀ w') x := fun w h =>
  ⟨hstays w h.confined, (hasFrame_of_steps (hmoves w) f).mpr h.hasFrame,
    h.written.trans (hwrites w)⟩

theorem exec_kept (h : OnlyIn f s g t) (fuel : Nat) :
    Keeps (fun w w' => Kept f s w₀ w → Kept f s w₀ w') (t.exec fuel g) :=
  kept_of_keeps (exec_confined (closed_onlyIn f s) fuel h) (t.exec_moves fuel g)
    (t.exec_writes seesSlots_writtenBy fuel h.writable)

theorem scheduled_kept :
    Scheduled (Kept f s w₀) (Keeps fun w w' => Kept f s w₀ w → Kept f s w₀ w') := by
  refine .of_preserves (fun hk h => ?_) (fun he h => h.of_frames rfl (h.confined.note he))
    (fun h hc => ?_) fun h hc hb => exec_kept (h.confined.body (closed_onlyIn f s) hc hb)
  · refine h.of_frames ?_ (h.confined.clerical hk)
    obtain ⟨_, _, _, _, _, _, _, heq⟩ := hk.kept _
    rw [heq]
  · obtain ⟨i, timeout, isReturn, hwhen⟩ := h.confined.held _ _ hc
    have hcond : Writable (WrittenBy f s.allIdents) _ _ :=
      Stmt.writable_of_mem_exprs (hwhen.writable.subset (Stmt.ownIdents_subset _)) _
        List.mem_cons_self
    exact kept_of_keeps (stays_of_local (Expr.eval_local _ _)) (.of_local (Expr.eval_local _ _))
      (Expr.eval_writes seesSlots_writtenBy hcond)

theorem frame_addFrame (hf : w.HasFrame f) (size : Nat) (session : Option SessionId) :
    (w.addFrame size session).2.frame f = w.frame f := by
  unfold HasFrame at hf
  unfold addFrame frame
  rw [Array.getElem?_push_lt hf, Array.getElem?_eq_getElem hf]

theorem perform_kept (fuel : Nat) (hop : op.RunsIn (OnlyIn f s))
    (hbind : ∀ slot v, op ≠ .bind f slot v) :
    Keeps (fun w w' => Kept f s w₀ w → Kept f s w₀ w') (op.perform fuel) := by
  have hconfined := (invariant_confined (closed_onlyIn f s)).perform fuel hop
  refine scheduled_kept.perform op ?_ ?_ ?_
  · rintro size session rfl w h
    have hf := h.hasFrame
    refine ⟨hconfined w h.confined, ?_, ?_⟩
    · unfold HasFrame at hf ⊢
      exact Nat.lt_of_lt_of_eq (Nat.lt_succ_of_lt hf) (Array.size_push _).symm
    · refine h.written.trans ?_
      change WrittenBy f s.allIdents w (w.addFrame size session).2
      rw [WrittenBy, frame_addFrame hf]
  · rintro g slot v rfl
    have hg : g ≠ f := fun e => hbind slot v (e ▸ rfl)
    refine kept_of_keeps hconfined (.of_local (.writeSlot slot v)) ?_
    exact (writable_of_ne hg [⟨"", slot, .void, none⟩]).set _ List.mem_cons_self v
  · rintro script g rfl
    exact exec_kept hop fuel

/-- The frame exists and has at least `n` slots. -/
def HasRoom (f : FrameRef) (n : Nat) (w : World) : Prop :=
  w.HasFrame f ∧ n ≤ (w.frame f).slots.size

theorem hasRoom_addFrame (size : Nat) (session : Option SessionId) (w : World) :
    HasRoom (w.addFrame size session).1 size (w.addFrame size session).2 := by
  constructor
  · exact Nat.lt_of_lt_of_eq (Nat.lt_succ_self _) (Array.size_push _).symm
  · unfold addFrame frame
    rw [Array.getElem?_push_size]
    exact Array.size_replicate.ge

/-- A value bound from outside may make a frame longer, never shorter. -/
theorem HasRoom.bind (h : HasRoom f n w) (slot : Nat) (v : Value) :
    HasRoom f n ((Exec.writeSlot f slot v).leaves w) := by
  unfold Exec.leaves
  rw [Exec.runFrom_writeSlot]
  cases hset : (w.frame f).slots.set slot v with
  | error a => exact h
  | ok slots =>
    refine ⟨hasFrame_modifyFrame.mpr h.1, ?_⟩
    rw [frame_modifyFrame_self h.1]
    exact h.2.trans (Slots.size_le_of_set hset)

theorem HasRoom.perform (hids : ∀ id ∈ s.allIdents, id.slot < n)
    (hconfined : w.Confined (OnlyIn f s)) (h : HasRoom f n w) (hop : op.RunsIn (OnlyIn f s)) :
    HasRoom f n ((op.perform fuel).leaves w) := by
  by_cases hbind : ∃ slot v, op = .bind f slot v
  · obtain ⟨slot, v, rfl⟩ := hbind
    exact h.bind slot v
  · have hkept := perform_kept fuel hop (fun slot v e => hbind ⟨slot, v, e⟩) w
      ⟨hconfined, h.1, .refl⟩
    exact ⟨hkept.hasFrame, h.2.trans_eq (Slots.size_of_writes hkept.written hids h.2).symm⟩

theorem EverIn.hasRoom (hids : ∀ id ∈ s.allIdents, id.slot < n)
    (hconfined : w₀.Confined (OnlyIn f s)) (hroom : HasRoom f n w₀) (h : EverIn (OnlyIn f s) w₀ w) :
    w.Confined (OnlyIn f s) ∧ HasRoom f n w := by
  induction h with
  | refl => exact ⟨hconfined, hroom⟩
  | tail _ hstep ih =>
    obtain ⟨op, fuel, hop, rfl⟩ := hstep
    exact ⟨(invariant_confined (closed_onlyIn f s)).perform fuel hop _ ih.1,
      ih.2.perform hids ih.1 hop⟩

end World

/-! ## Units -/

namespace Script

variable {w : World}

/-- The frame `f` belongs to the script: it was made for it at some time in the
history of the engine, and nothing else is run in it. -/
def Occupies (s : Script) (f : FrameRef) (w : World) : Prop :=
  ∃ (now : Instant) (limits : Limits) (w₁ : World) (session : Option SessionId),
    World.EverIn (World.OnlyIn f s.body) (.start now limits) w₁ ∧
    (w₁.addFrame s.frameSize session).1 = f ∧
    World.EverIn (World.OnlyIn f s.body) (w₁.addFrame s.frameSize session).2 w

theorem Occupies.everIn {s : Script} (h : s.Occupies f w) :
    ∃ now limits, World.EverIn (World.OnlyIn f s.body) (.start now limits) w := by
  obtain ⟨now, limits, w₁, session, hbefore, rfl, hafter⟩ := h
  exact ⟨now, limits, (hbefore.perform (.newFrame s.frameSize session) 0 trivial).trans hafter⟩

theorem Occupies.hasRoom {u : Doc.Unit} {firstStmt : StmtId}
    (h : (build u firstStmt).Occupies f w) :
    w.Confined (World.OnlyIn f (build u firstStmt).body) ∧
      World.HasRoom f (build u firstStmt).frameSize w := by
  obtain ⟨now, limits, w₁, session, hbefore, rfl, hafter⟩ := h
  have hmade := hbefore.perform (.newFrame (build u firstStmt).frameSize session) 0 trivial
  exact hafter.hasRoom (fun _ => slot_lt) (hmade.confined (World.closed_onlyIn _ _))
    (World.hasRoom_addFrame _ _ _)

/-- The slots of every unit, in order or not. Each identifier in the body has a
slot of the frame, and two with the same slot have the same name and type. So in
a frame that was made for the unit, which only the unit runs in, no operation
but the host's own binding changes how many slots there are, however it ends; and
all that it does to the slots is to fill or empty them, one after the other,
through identifiers of the body. -/
theorem slots_keep_to_idents (u : Doc.Unit) (firstStmt : StmtId) :
    let s := build u firstStmt
    (∀ id ∈ s.body.allIdents, id.slot < s.frameSize) ∧
    (∀ id ∈ s.body.allIdents, ∀ id' ∈ s.body.allIdents, id.slot = id'.slot →
      id.name = id'.name ∧ id.ty = id'.ty) ∧
    ∀ (f : FrameRef) (w : World), s.Occupies f w → ∀ (op : HostOp) (fuel : Nat),
      op.RunsIn (World.OnlyIn f s.body) → (∀ slot v, op ≠ .bind f slot v) →
      let w' := (op.perform fuel).leaves w
      s.frameSize ≤ (w.frame f).slots.size ∧
      (w'.frame f).slots.size = (w.frame f).slots.size ∧
      ReflTransGen (Slots.WriteBy s.body.allIdents) (w.frame f).slots (w'.frame f).slots := by
  refine ⟨fun id => slot_lt, ?_, ?_⟩
  · intro id hid id' hid' hslot
    rw [ident_eq_of_slot hid hid' hslot]
    exact ⟨rfl, rfl⟩
  · intro f w hw op fuel hop hbind
    obtain ⟨hconfined, hf, hroom⟩ := hw.hasRoom
    have hkept := World.perform_kept fuel hop hbind w ⟨hconfined, hf, .refl⟩
    exact ⟨hroom, Slots.size_of_writes hkept.written (fun _ => slot_lt) hroom, hkept.written⟩

end Script

/-- A constant that is then a loop variable, which is an error, and a loop that
a trigger runs later. -/
def looseEnds : Doc.Unit where
  name := "loose-ends"
  kind := .toplevel
  locals := [⟨"x", .count, some (.count 5), .unknown⟩]
  body := .list
    [.for [⟨"x", none, .unknown⟩] none (.const (.str "")) .null,
      .when (.const (.bool true)) (.for [⟨"c", none, .unknown⟩] none (.const (.str "ab")) .null)
        none false]

/-- The unit has errors and three slots. After a run its trigger fills the slot of
`c`, twice, and the frame keeps its size. -/
theorem Script.slots_keep_to_idents_looseEnds :
    ∃ w : World, (build looseEnds 0).hasErrors = true ∧
      (build looseEnds 0).Occupies ⟨0⟩ w ∧ (w.frame ⟨0⟩).slots = #[none, none, none] ∧
      (((HostOp.checkAll.perform 2).leaves w).frame ⟨0⟩).slots =
        #[none, none, some (.str [98])] ∧
      (((HostOp.checkAll.perform 2).leaves w).frame ⟨0⟩).slots.size =
        (w.frame ⟨0⟩).slots.size ∧
      ReflTransGen (Slots.WriteBy (build looseEnds 0).body.allIdents) (w.frame ⟨0⟩).slots
        (((HostOp.checkAll.perform 2).leaves w).frame ⟨0⟩).slots := by
  let P := World.OnlyIn ⟨0⟩ (build looseEnds 0).body
  let w₀ := ((World.start default default).addFrame (build looseEnds 0).frameSize none).2
  let w := ((HostOp.run (build looseEnds 0) ⟨0⟩).perform 2).leaves w₀
  have hmade : World.EverIn P w₀ w₀ := .refl
  have hoccupies : (build looseEnds 0).Occupies ⟨0⟩ w :=
    ⟨default, default, .start default default, none, .refl, rfl,
      hmade.perform (.run (build looseEnds 0) ⟨0⟩) 2 fun _ => Stmt.self_mem_preorder _⟩
  have hslots : (w.frame ⟨0⟩).slots = #[none, none, none] := by decide +kernel
  have hafter : (((HostOp.checkAll.perform 2).leaves w).frame ⟨0⟩).slots =
      #[none, none, some (.str [98])] := by decide +kernel
  clear_value w
  obtain ⟨-, hsize, hwritten⟩ := (slots_keep_to_idents looseEnds 0).2.2 ⟨0⟩ w hoccupies .checkAll 2
    trivial fun _ _ => nofun
  exact ⟨w, by decide +kernel, hoccupies, hslots, hafter, hsize, hwritten⟩

end Vigil
