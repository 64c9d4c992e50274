import Vigil.Proofs.Exec.Compose

/-!
# Vigil.Proofs.Exec.Local — what expressions read and write

Evaluating an expression reads the heap and the slots of its frame, and
changes nothing else (`Expr.eval_local`): in two worlds that agree on these it
answers the same and leaves the same heap and slots, and all the rest of each
world stays as it is. It needs no budget and knows no limit of rounds, so it
never stops the way loops do (`Exec.Local.not_ofLoop`).
-/

namespace Vigil

variable {s : Stop} {e : Fault} {h : Heap}

/-- The ways to stop that loops have: out of budget, or at the limit of
rounds. -/
def Stop.OfLoop : Stop → Prop
  | .exhausted | .fault (.iterationLimit _) => True
  | _ => False

namespace World

variable {w : World} {f : FrameRef} {g : Frame → Frame} {f' : FrameRef} {v : World}

/-- The reference names a frame. -/
def HasFrame (w : World) (f : FrameRef) : Prop := f.idx < w.frames.size

instance (w : World) (f : FrameRef) : Decidable (w.HasFrame f) :=
  inferInstanceAs (Decidable (_ < _))

theorem frame_modifyFrame_self (hf : w.HasFrame f) (g : Frame → Frame) :
    (w.modifyFrame f g).frame f = g (w.frame f) := by
  unfold HasFrame at hf
  simp [frame, modifyFrame, Array.getElem_modify_self, hf]

/-- A change of a frame matters only for the frame as it is. -/
theorem modifyFrame_congr {g' : Frame → Frame} (h : g (w.frame f) = g' (w.frame f)) :
    w.modifyFrame f g = w.modifyFrame f g' := by
  have hm : w.frames.modify f.idx g = w.frames.modify f.idx g' := by
    refine Array.ext (by simp) fun i h₁ h₂ => ?_
    rw [Array.getElem_modify, Array.getElem_modify]
    split
    · rename_i hi
      subst hi
      rw [Array.size_modify] at h₁
      simpa [frame, h₁] using h
    · rfl
  unfold modifyFrame
  rw [hm]

theorem modifyFrame_eq_self (h : g (w.frame f) = w.frame f) : w.modifyFrame f g = w := by
  have hid : w.frames.modify f.idx id = w.frames := by
    refine Array.ext (by simp) fun i h₁ h₂ => ?_
    rw [Array.getElem_modify]
    split <;> rfl
  rw [modifyFrame_congr (show g (w.frame f) = id (w.frame f) from h)]
  unfold modifyFrame
  rw [hid]

theorem modifyFrame_of_not_hasFrame (hf : ¬ w.HasFrame f) (g : Frame → Frame) :
    w.modifyFrame f g = w := by
  unfold HasFrame at hf
  have h : w.frames.modify f.idx g = w.frames := by
    refine Array.ext (by simp) fun i h₁ h₂ => ?_
    rw [Array.getElem_modify_of_ne (by omega)]
  unfold modifyFrame
  rw [h]

@[simp] theorem hasFrame_modifyFrame : (w.modifyFrame f g).HasFrame f' ↔ w.HasFrame f' := by
  simp [HasFrame, modifyFrame]

theorem modifyFrame_modifyFrame (w : World) (f : FrameRef) (g g' : Frame → Frame) :
    (w.modifyFrame f g).modifyFrame f g' = w.modifyFrame f (g' ∘ g) := by
  have h : (w.frames.modify f.idx g).modify f.idx g' = w.frames.modify f.idx (g' ∘ g) := by
    refine Array.ext (by simp) fun i h₁ h₂ => ?_
    simp only [Array.getElem_modify]
    split <;> rfl
  unfold modifyFrame
  rw [h]

theorem modifyFrame_comm (g g' : Frame → Frame) (h : ∀ fr, g (g' fr) = g' (g fr)) (w : World)
    (f : FrameRef) :
    (w.modifyFrame f g').modifyFrame f g = (w.modifyFrame f g).modifyFrame f g' := by
  rw [modifyFrame_modifyFrame, modifyFrame_modifyFrame, show g ∘ g' = g' ∘ g from funext h]

theorem modifyFrame_comm_of_ne (h : f ≠ f') (g g' : Frame → Frame) (w : World) :
    (w.modifyFrame f' g').modifyFrame f g = (w.modifyFrame f g).modifyFrame f' g' := by
  have hidx : f.idx ≠ f'.idx := fun e => h (by cases f; cases f'; cases e; rfl)
  have hm : (w.frames.modify f'.idx g').modify f.idx g =
      (w.frames.modify f.idx g).modify f'.idx g' := by
    refine Array.ext (by simp) fun i h₁ h₂ => ?_
    simp only [Array.getElem_modify]
    grind
  unfold modifyFrame
  rw [hm]

theorem frame_modifyFrame_of_ne (h : f' ≠ f) (g : Frame → Frame) :
    (w.modifyFrame f g).frame f' = w.frame f' := by
  have hidx : f.idx ≠ f'.idx := fun e => h (by cases f; cases f'; cases e; rfl)
  simp [frame, modifyFrame, Array.getElem?_modify, hidx]

/-- A change that leaves one field of frames alone leaves it alone everywhere. -/
theorem frame_modifyFrame_field {α : Type} (field : Frame → α) (hg : ∀ fr, field (g fr) = field fr)
    (w : World) (f f' : FrameRef) :
    field ((w.modifyFrame f g).frame f') = field (w.frame f') := by
  by_cases h : f' = f
  · subst h
    by_cases hf : w.HasFrame f'
    · rw [frame_modifyFrame_self hf, hg]
    · rw [modifyFrame_of_not_hasFrame hf]
  · rw [frame_modifyFrame_of_ne h]

/-- The world with another heap and other slots in one frame. -/
def withStore (f : FrameRef) (h : Heap) (slots : Slots) (w : World) : World :=
  { w.modifyFrame f (fun fr => { fr with slots := slots }) with heap := h }

theorem modifyFrame_slots (w : World) (f : FrameRef) (g : Slots → Slots) :
    w.modifyFrame f (fun fr => { fr with slots := g fr.slots }) =
      w.withStore f w.heap (g (w.frame f).slots) := by
  have h : w.modifyFrame f (fun fr => { fr with slots := g fr.slots }) =
      w.modifyFrame f fun fr => { fr with slots := g (w.frame f).slots } := modifyFrame_congr rfl
  rw [h]
  rfl

/-- Two worlds agree on what an expression of the frame can read. -/
structure SameStore (f : FrameRef) (w v : World) : Prop where
  heap : v.heap = w.heap
  slots : (v.frame f).slots = (w.frame f).slots
  hasFrame : v.HasFrame f ↔ w.HasFrame f

theorem SameStore.refl (f : FrameRef) (w : World) : SameStore f w w := ⟨rfl, rfl, .rfl⟩

theorem SameStore.withStore (hs : SameStore f w v) (h : Heap) (slots : Slots) :
    SameStore f (w.withStore f h slots) (v.withStore f h slots) where
  heap := rfl
  slots := by
    by_cases hf : w.HasFrame f
    · have hv := hs.hasFrame.mpr hf
      have hw' := congrArg Frame.slots
        (frame_modifyFrame_self hf fun fr => { fr with slots := slots })
      have hv' := congrArg Frame.slots
        (frame_modifyFrame_self hv fun fr => { fr with slots := slots })
      exact hv'.trans hw'.symm
    · have hv := mt hs.hasFrame.mp hf
      unfold World.withStore
      rw [modifyFrame_of_not_hasFrame hf, modifyFrame_of_not_hasFrame hv]
      exact hs.slots
  hasFrame := by
    have h' := hs.hasFrame
    simpa [World.withStore, HasFrame, modifyFrame] using h'

theorem withStore_withStore (w : World) (f : FrameRef) (h h' : Heap) (s s' : Slots) :
    (w.withStore f h s).withStore f h' s' = w.withStore f h' s' := by
  have hm := modifyFrame_modifyFrame w f (fun fr => { fr with slots := s })
    fun fr => { fr with slots := s' }
  exact congrArg (fun v : World => { v with heap := h' }) hm

theorem withStore_eq_self (hs : SameStore f w v) : v.withStore f w.heap (w.frame f).slots = v := by
  unfold withStore
  rw [← hs.heap, ← hs.slots, modifyFrame_eq_self rfl]

end World

/-! ## Operations that answer -/

/-- What tables refuse is a wrong index. -/
theorem Table.not_ofLoop_of_key {β : Type} {t : Table} {index : List Value} {g : Key → β}
    (h : (t.key index >>= fun k => pure (g k)) = Except.error e) :
    ¬ (Stop.fault e).OfLoop := by
  unfold key at h
  split at h <;> cases h
  exact id

/-- The ways operators stop: for their operands, at a division by zero, or out of the
range of times. -/
def Stop.OfOperator : Stop → Prop
  | .fault (.typeMismatch _) | .fault .divisionByZero | .abort .timeRange => True
  | _ => False

theorem Stop.OfOperator.not_ofLoop (h : s.OfOperator) : ¬ s.OfLoop := by
  unfold OfOperator at h
  split at h
  · exact id
  · exact id
  · exact id
  · exact h.elim

theorem UnaryOp.stop_of_apply {op : UnaryOp} {v : Value} (hs : op.apply h v = .error s) :
    s.OfOperator := by
  unfold apply at hs
  split at hs <;> cases hs
  exact trivial

namespace BinaryOp

variable {α : Type} {op : BinaryOp} {s : Stop} {e : Fault}

theorem stop_of_inRange {g : α → Value} {r : Option α} (hr : inRange g r = .error s) :
    s.OfOperator := by
  unfold inRange at hr
  split at hr <;> cases hr
  exact trivial

theorem stop_of_settle {m : Mismatch} {g : α → Value} {r : Option (Except Fault α)}
    (hr : ∀ e, r = some (.error e) → e = .divisionByZero)
    (hs : settle (.typeMismatch m) g r = .error s) : s.OfOperator := by
  unfold settle at hs
  split at hs
  · cases hs
  · cases hs
    rw [hr _ rfl]
    exact trivial
  · cases hs
    exact trivial

/-- What arithmetic refuses is a division. -/
theorem division_of_throw {p : Prop} [Decidable p] {x : α}
    (h : some (if p then throw .divisionByZero else pure x : Except Fault α) = some (.error e)) :
    e = .divisionByZero := by
  split at h <;> cases h
  rfl

theorem division_of_onCounts {x y : UInt64} (h : op.onCounts x y = some (.error e)) :
    e = .divisionByZero := by
  unfold onCounts at h
  split at h
  all_goals first
    | cases h
    | exact division_of_throw h

theorem division_of_onInts {x y : Int64} (h : op.onInts x y = some (.error e)) :
    e = .divisionByZero := by
  unfold onInts at h
  split at h
  all_goals first
    | cases h
    | exact division_of_throw h

theorem division_of_onDoubles {x y : Double} (h : op.onDoubles x y = some (.error e)) :
    e = .divisionByZero := by
  unfold onDoubles at h
  split at h
  all_goals first
    | cases h
    | exact division_of_throw h

theorem division_of_onScaled {intervalFirst : Bool} {d : Interval} {k : Double}
    (h : op.onScaled intervalFirst d k = some (.error e)) : e = .divisionByZero := by
  unfold onScaled at h
  split at h
  · cases h
  · split at h
    · exact division_of_throw h
    · cases h
  · cases h

theorem stop_of_apply {a b : Value} (hs : op.apply h a b = .error s) : s.OfOperator := by
  -- comparisons first, then each pair of operand kinds
  unfold apply at hs
  dsimp only at hs
  split at hs
  · split at hs <;> cases hs
    exact trivial
  · split at hs
    · exact stop_of_settle (fun _ => division_of_onCounts) hs
    all_goals
      split at hs
      all_goals first
        | exact stop_of_inRange hs
        | exact stop_of_settle (fun _ => division_of_onScaled) hs
        | exact stop_of_settle (fun _ => division_of_onDoubles) hs
        | exact stop_of_settle (fun _ => division_of_onInts) hs
        | (cases hs; exact trivial)
        | (split at hs <;> cases hs; exact trivial)

end BinaryOp

namespace Exec

open World (SameStore)

variable {α β : Type} {f : FrameRef}

/-- Whatever `x` answers depends on the heap and the slots of `f` only, it
changes nothing else, and it does not stop the way loops do. -/
def Local (f : FrameRef) (x : Exec α) : Prop :=
  ∀ w, ∃ r h s, (∀ e, r = .error e → ¬ e.OfLoop) ∧
    ∀ v, SameStore f w v → x.runFrom v = (r, v.withStore f h s)

namespace Local

theorem not_ofLoop {x : Exec α} (hx : Local f x) {w w' : World} {e : Stop}
    (h : x.runFrom w = (.error e, w')) : ¬ e.OfLoop := by
  obtain ⟨r, _, _, hr, hx⟩ := hx w
  rw [hx w (.refl f w)] at h
  exact hr e (congrArg Prod.fst h)

/-- All it changes is the store. -/
theorem leaves_store {x : Exec α} (hx : Local f x) (w : World) :
    ∃ h s, x.leaves w = w.withStore f h s := by
  obtain ⟨r, h, s, -, hx⟩ := hx w
  exact ⟨h, s, congrArg Prod.snd (hx w (.refl f w))⟩

/-- A computation that only answers. -/
theorem of_answer {x : Exec α} (g : Heap → Slots → Except Stop α)
    (hx : ∀ w, x.runFrom w = (g w.heap (w.frame f).slots, w))
    (hg : ∀ h s e, g h s = .error e → ¬ e.OfLoop) : Local f x := by
  intro w
  refine ⟨g w.heap (w.frame f).slots, w.heap, (w.frame f).slots, hg _ _, fun v hs => ?_⟩
  rw [hx, World.withStore_eq_self hs, hs.heap, hs.slots]

theorem pure (a : α) : Local f (pure a : Exec α) :=
  .of_answer (fun _ _ => .ok a) (fun _ => rfl) nofun

theorem throw (hs : ¬ s.OfLoop) : Local f (throw s : Exec α) := by
  refine .of_answer (fun _ _ => .error s) (fun _ => rfl) ?_
  rintro _ _ _ ⟨⟩
  exact hs

theorem fault (he : ¬ (Stop.fault e).OfLoop) : Local f (fault e : Exec α) := throw he

theorem abort (a : Abort) : Local f (abort a : Exec α) := throw id

theorem mismatch (m : Mismatch) : Local f (mismatch m : Exec α) := throw id

theorem heap : Local f heap := .of_answer (fun h _ => .ok h) (fun _ => rfl) nofun

theorem typeOf (v : Value) : Local f (typeOf v) :=
  .of_answer (fun h _ => .ok (h.typeOf v)) (fun _ => rfl) nofun

theorem ofStop {r : Except Stop α} (hr : ∀ s, r = .error s → ¬ s.OfLoop) : Local f (ofStop r) := by
  cases r
  · exact throw (hr _ rfl)
  · exact pure _

theorem ofFault {r : Except Fault α} (hr : ∀ e, r = .error e → ¬ (Stop.fault e).OfLoop) :
    Local f (ofFault r) := by
  cases r
  · exact fault (hr _ rfl)
  · exact pure _

theorem ofAbort (r : Except Abort α) : Local f (ofAbort r) := by
  cases r
  · exact abort _
  · exact pure _

theorem bind {x : Exec α} {k : α → Exec β} (hx : Local f x) (hk : ∀ a, Local f (k a)) :
    Local f (x >>= k) := by
  intro w
  obtain ⟨r, h, s, hloop, hx⟩ := hx w
  cases r with
  | error e =>
    refine ⟨.error e, h, s, fun e' he' => hloop e' (by cases he'; rfl), fun v hs => ?_⟩
    rw [runFrom_bind, hx v hs]
  | ok a =>
    -- the second part starts in worlds that agree again, on the new heap and slots
    obtain ⟨r', h', s', hloop', hk⟩ := hk a (w.withStore f h s)
    refine ⟨r', h', s', hloop', fun v hs => ?_⟩
    rw [runFrom_bind, hx v hs]
    exact (hk _ (hs.withStore h s)).trans (by rw [World.withStore_withStore])

theorem onFault {x : Exec α} {recover : Fault → Exec α} (hx : Local f x)
    (hr : ∀ e, Local f (recover e)) : Local f (onFault x recover) := by
  intro w
  obtain ⟨r, h, s, hloop, hx⟩ := hx w
  rcases r with (e | a | _) | a
  · obtain ⟨r', h', s', hloop', hr⟩ := hr e (w.withStore f h s)
    refine ⟨r', h', s', hloop', fun v hs => ?_⟩
    rw [runFrom_onFault, hx v hs]
    exact (hr _ (hs.withStore h s)).trans (by rw [World.withStore_withStore])
  · refine ⟨.error (.abort a), h, s, hloop, fun v hs => ?_⟩
    rw [runFrom_onFault, hx v hs]
  · exact absurd trivial (hloop .exhausted rfl)
  · refine ⟨.ok a, h, s, nofun, fun v hs => ?_⟩
    rw [runFrom_onFault, hx v hs]

theorem map {x : Exec α} {g : α → β} (hx : Local f x) : Local f (g <$> x) := by
  rw [map_eq_pure_bind]
  exact bind hx fun _ => pure _

theorem setHeap (h : Heap) : Local f (setHeap h) := by
  intro w
  refine ⟨.ok (), h, (w.frame f).slots, nofun, fun v hs => ?_⟩
  rw [runFrom_setHeap, ← hs.slots, World.withStore, World.modifyFrame_eq_self rfl]

theorem modifyTable (r : TableRef) (g : Table → Table) : Local f (modifyTable r g) :=
  bind heap fun _ => setHeap _

/-! ### Slots -/

theorem readSlot (i : Nat) (name : String) : Local f (readSlot f i name) := by
  refine .of_answer (fun _ slots => (slots.get i).elim (.error (.fault (.unbound name))) .ok)
    (fun w => ?_) fun _ s e he => ?_
  · rw [runFrom_readSlot]
    cases (w.frame f).slots.get i <;> rfl
  · cases hget : s.get i <;> rw [hget] at he <;> cases he
    exact id

theorem writeSlot (i : Nat) (v : Value) : Local f (writeSlot f i v) := by
  intro w
  cases h : (w.frame f).slots.set i v with
  | ok slots =>
    refine ⟨.ok (), w.heap, slots, nofun, fun v hs => ?_⟩
    rw [runFrom_writeSlot, hs.slots, h, ← hs.heap]
    rfl
  | error a =>
    refine ⟨.error (.abort a), w.heap, (w.frame f).slots, ?_, fun v hs => ?_⟩
    · rintro _ ⟨⟩
      exact id
    rw [runFrom_writeSlot, hs.slots, h, World.withStore_eq_self hs]

theorem clearSlot (i : Nat) : Local f (clearSlot f i) := by
  intro w
  refine ⟨.ok (), w.heap, (w.frame f).slots.clear i, nofun, fun v hs => ?_⟩
  rw [runFrom_clearSlot, ← hs.heap, ← hs.slots, World.modifyFrame_slots v f fun s => s.clear i]

/-! ### Elements of collections -/

theorem vectorIndex (v : Value) : Local f (vectorIndex v) := by
  unfold Exec.vectorIndex
  split
  · exact pure _
  · split
    · exact pure _
    · exact fault id
  · exact bind (typeOf _) fun _ => mismatch _

theorem vectorPosition (vs : List Value) : Local f (vectorPosition vs) := by
  cases vs
  · exact abort _
  · exact vectorIndex _

theorem element (c : Value) (index : List Value) : Local f (element c index) := by
  unfold Exec.element
  split
  · refine bind heap fun h => ?_
    dsimp only
    split
    · exact mismatch _
    · refine bind (ofFault fun _ => Table.not_ofLoop_of_key) fun o => ?_
      split
      · exact pure _
      · exact fault id
  · refine bind (vectorPosition _) fun i => bind heap fun h => ?_
    split
    · exact pure _
    · exact fault id
  · exact bind (typeOf _) fun _ => mismatch _

theorem storeElement (c : Value) (index : List Value) (v : Value) :
    Local f (storeElement c index v) := by
  unfold Exec.storeElement
  split
  · exact bind heap fun _ => bind (ofFault fun _ => Table.not_ofLoop_of_key) fun _ => setHeap _
  · exact bind (vectorPosition _) fun _ => bind heap fun _ => bind (ofAbort _) fun _ => setHeap _
  · exact bind (typeOf _) fun _ => mismatch _

theorem addElement (c : Value) (index : List Value) : Local f (addElement c index) := by
  unfold Exec.addElement
  split
  · exact bind heap fun _ => bind (ofFault fun _ => Table.not_ofLoop_of_key) fun _ => setHeap _
  · exact mismatch _

theorem deleteElement (c : Value) (index : List Value) : Local f (deleteElement c index) := by
  unfold Exec.deleteElement
  split
  · exact bind heap fun _ => bind (ofFault fun _ => Table.not_ofLoop_of_key) fun _ => setHeap _
  · exact bind (vectorPosition _) fun _ => bind heap fun _ => setHeap _
  · exact bind (typeOf _) fun _ => mismatch _

theorem isMember (c : Value) (elem : List Value) : Local f (isMember c elem) := by
  unfold Exec.isMember
  split
  · exact bind heap fun _ => ofFault fun _ => Table.not_ofLoop_of_key
  · exact onFault (bind (vectorIndex _) fun _ => bind heap fun _ => pure _) fun _ => pure _
  · exact pure _
  · exact bind (typeOf _) fun _ => mismatch _

theorem sizeOf (v : Value) : Local f (sizeOf v) := by
  unfold Exec.sizeOf
  split
  · exact bind heap fun _ => pure _
  · exact bind heap fun _ => pure _
  all_goals first
    | exact pure _
    | exact bind (typeOf _) fun _ => mismatch _

theorem evaluates : Evaluates (Local f) :=
  ⟨pure, bind, mismatch,
    fun _ _ => bind heap fun _ => ofStop fun _ h => (UnaryOp.stop_of_apply h).not_ofLoop,
    fun _ _ _ => bind heap fun _ => ofStop fun _ h => (BinaryOp.stop_of_apply h).not_ofLoop,
    element, isMember, sizeOf⟩

end Local

end Exec

/-! ## Expressions -/

namespace Expr

open Exec

theorem place_local (f : FrameRef) (p : Place) : p.Has (Local f) f := by
  cases p with
  | slot i => exact .writeSlot i
  | element => exact .storeElement

theorem eval_local (f : FrameRef) (e : Expr) : Local f (eval f e) :=
  eval_has Local.evaluates e (fun _ _ => .readSlot _ _) fun p _ => place_local f p

theorem evalList_local (f : FrameRef) (es : List Expr) : Local f (evalList f es) :=
  evalList_has Local.evaluates es (fun _ _ => .readSlot _ _) fun p _ => place_local f p

theorem addTo_local (f : FrameRef) (e : Expr) : Local f (e.addTo f) := by
  unfold addTo
  split
  · exact .bind (eval_local f _) fun _ => .bind (evalList_local f _) fun _ => .addElement _ _
  · exact .mismatch _

theorem deleteFrom_local (f : FrameRef) (e : Expr) : Local f (e.deleteFrom f) := by
  unfold deleteFrom
  split
  · exact .bind (eval_local f _) fun _ => .bind (evalList_local f _) fun _ => .deleteElement _ _
  · exact .mismatch _

end Expr

/-! ## Parts of statements -/

namespace Stmt

open Exec

variable {f : FrameRef}

theorem forM_writeSlot_local (bs : List (Ident × Value)) :
    Local f (bs.forM fun (var, v) => writeSlot f var.slot v) := by
  induction bs with
  | nil => exact .pure _
  | cons b bs ih => exact .bind (.writeSlot _ _) fun _ => ih

theorem bindEntry_local (vars : List Ident) (valueVar : Option Ident) (index : List Value)
    (v : Option Value) : Local f (bindEntry f vars valueVar index v) := by
  unfold bindEntry
  dsimp only
  split
  · exact .bind (.writeSlot _ _) fun _ => forM_writeSlot_local _
  · exact forM_writeSlot_local _

theorem bindCase_local (v : Value) (binding : Option Ident) : Local f (bindCase f v binding) := by
  cases binding with
  | none => exact .pure _
  | some id =>
    refine .bind .heap fun h => ?_
    split
    · exact .writeSlot _ _
    · exact .abort _

theorem giveFresh_local (ids : List Ident) : Local f (giveFresh f ids) := by
  induction ids with
  | nil => exact .pure _
  | cons id rest ih =>
    refine .bind .heap fun h => ?_
    split
    · exact .bind (.setHeap _) fun _ => .bind (.writeSlot _ _) fun _ => ih
    · exact .bind (.clearSlot _) fun _ => ih

end Stmt

end Vigil
