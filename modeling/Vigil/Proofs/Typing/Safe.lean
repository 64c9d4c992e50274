import Vigil.Proofs.Trigger.Basic
import Vigil.Proofs.Typing.Heap
import Vigil.Proofs.Typing.Syntax

/-!
# Vigil.Proofs.Typing.Safe — safe computations

A world conforms to layouts of its frames when its collections conform to
their types, every bound slot holds a value of its identifier's type, and all
that waiting triggers hold is typed. A computation is safe from such a world
when it leaves one, with collections only added, breaks no invariant of the
engine, and yields only what its postcondition allows (`Exec.Safe`).

The rules for sequences and recovery (`Safe.bind`, `Safe.onFault`) reduce the
safety of a computation to that of its parts; below them stand the primitive
computations on slots, collections and elements.
-/

namespace Vigil

variable {α β : Type} {Γ : FrameRef → Layout} {w w' : World} {f : FrameRef} {h : Heap}

namespace World

/-- The heap, the slots of every frame and the waiting triggers are as the
layouts of the frames say. -/
structure Conforms (Γ : FrameRef → Layout) (w : World) : Prop where
  heap : w.heap.Conforms
  slots : ∀ f, ∀ id ∈ (Γ f).idents, ∀ v,
    (w.frame f).slots.get id.slot = some v → w.heap.HasType v id.ty
  captured : ∀ t c, (w.trigger t).captured = some c → c.Typed (Γ c.frame)

/-- A later world: it conforms, and the heap has only grown. -/
structure Evolves (Γ : FrameRef → Layout) (w w' : World) : Prop where
  conforms : w'.Conforms Γ
  grows : w.heap.Grows w'.heap

theorem Evolves.refl (hw : w.Conforms Γ) : w.Evolves Γ w := ⟨hw, .refl _⟩

theorem Evolves.trans {w₁ w₂ w₃ : World} (h : w₁.Evolves Γ w₂) (h' : w₂.Evolves Γ w₃) :
    w₁.Evolves Γ w₃ :=
  ⟨h'.conforms, h.grows.trans h'.grows⟩

/-- What neither layouts nor types speak of may change. -/
theorem Conforms.evolves (hw : w.Conforms Γ) (hheap : w'.heap = w.heap)
    (hslots : ∀ f, (w'.frame f).slots = (w.frame f).slots)
    (hcaptured : ∀ t c, (w'.trigger t).captured = some c → (w.trigger t).captured = some c) :
    w.Evolves Γ w' := by
  refine ⟨⟨hheap ▸ hw.heap, fun f id hid v hv => ?_, fun t c hc => ?_⟩, hheap ▸ .refl _⟩
  · rw [hslots] at hv
    exact hheap ▸ hw.slots f id hid v hv
  · exact hw.captured t c (hcaptured t c hc)

/-- The heap may grow to another that conforms. -/
theorem Conforms.withHeap (hw : w.Conforms Γ) (hh : h.Conforms) (hg : w.heap.Grows h) :
    w.Evolves Γ { w with heap := h } :=
  ⟨⟨hh, fun f id hid v hv => (hw.slots f id hid v hv).mono hg, hw.captured⟩, hg⟩

/-- Slots of a frame may change as long as what they hold fits. -/
theorem Conforms.withSlots {s : Slots} (hw : w.Conforms Γ)
    (hs : ∀ id ∈ (Γ f).idents, ∀ v, s.get id.slot = some v → w.heap.HasType v id.ty) :
    w.Evolves Γ (w.modifyFrame f fun fr => { fr with slots := s }) := by
  refine ⟨⟨hw.heap, fun f' id hid v hv => ?_, hw.captured⟩, .refl _⟩
  by_cases hf : f' = f
  · subst hf
    by_cases hframe : w.HasFrame f'
    · rw [frame_modifyFrame_self hframe] at hv
      exact hs id hid v hv
    · rw [modifyFrame_of_not_hasFrame hframe] at hv
      exact hw.slots f' id hid v hv
  · rw [frame_modifyFrame_of_ne hf] at hv
    exact hw.slots f' id hid v hv

end World

/-- An invariant of the engine is broken, or a vector was indexed with
nothing. -/
def Stop.Internal : Stop → Prop
  | .abort (.broken _) | .abort .emptyIndex => True
  | _ => False

namespace Exec

variable {v : Value} {s : Stop} {g : World → World} {id : Ident}

/-- The result of a computation run from `w`: a later world and what `Q`
allows, or a stop for no internal reason. -/
def Settles (Γ : FrameRef → Layout) (w : World) (Q : α → World → Prop) :
    Except Stop α × World → Prop
  | (.ok a, w') => w.Evolves Γ w' ∧ Q a w'
  | (.error s, w') => w.Evolves Γ w' ∧ ¬ s.Internal

/-- Run from `w`, the computation leaves a conforming world, yields what `Q`
allows, and stops for no internal reason. -/
def Safe (Γ : FrameRef → Layout) (w : World) (x : Exec α) (Q : α → World → Prop) : Prop :=
  Settles Γ w Q (x.runFrom w)

variable {x : Exec α} {Q R : α → World → Prop}

theorem Settles.since {r : Except Stop α × World} (h : Settles Γ w' Q r)
    (hev : w.Evolves Γ w') : Settles Γ w Q r := by
  obtain ⟨_ | _, _⟩ := r
  · exact ⟨hev.trans h.1, h.2⟩
  · exact ⟨hev.trans h.1, h.2⟩

theorem Settles.mono {r : Except Stop α × World} (h : Settles Γ w Q r)
    (hQ : ∀ a w', w.Evolves Γ w' → Q a w' → R a w') : Settles Γ w R r := by
  obtain ⟨_ | _, _⟩ := r
  · exact h
  · exact ⟨h.1, hQ _ _ h.1 h.2⟩

theorem Safe.of_ok {a : α} (h : Safe Γ w x Q) (hx : x.runFrom w = (.ok a, w')) :
    w.Evolves Γ w' ∧ Q a w' := by
  unfold Safe at h
  rwa [hx] at h

theorem Safe.of_error (h : Safe Γ w x Q) (hx : x.runFrom w = (.error s, w')) :
    w.Evolves Γ w' ∧ ¬ s.Internal := by
  unfold Safe at h
  rwa [hx] at h

theorem Safe.evolves (h : Safe Γ w x Q) : w.Evolves Γ (x.leaves w) := by
  unfold leaves
  cases hx : x.runFrom w with
  | mk r w' =>
    cases r with
    | ok a => exact (h.of_ok hx).1
    | error s => exact (h.of_error hx).1

theorem Safe.mono (h : Safe Γ w x Q) (hQ : ∀ a w', w.Evolves Γ w' → Q a w' → R a w') :
    Safe Γ w x R :=
  Settles.mono h hQ

theorem Safe.pure {a : α} (hw : w.Conforms Γ) (hQ : Q a w) : Safe Γ w (pure a) Q :=
  ⟨.refl hw, hQ⟩

theorem Safe.throw (hw : w.Conforms Γ) (hs : ¬ s.Internal) : Safe Γ w (throw s : Exec α) Q :=
  ⟨.refl hw, hs⟩

theorem Safe.fault {e : Fault} (hw : w.Conforms Γ) : Safe Γ w (fault e) Q := .throw hw id

theorem Safe.exhausted (hw : w.Conforms Γ) :
    Safe Γ w (MonadExcept.throw Stop.exhausted : Exec α) Q :=
  .throw hw id

theorem Safe.mismatch {m : Mismatch} (hw : w.Conforms Γ) : Safe Γ w (mismatch m) Q := .fault hw

theorem Safe.of_modify {Q : PUnit → World → Prop} (hg : w.Evolves Γ (g w)) (hQ : Q ⟨⟩ (g w)) :
    Safe Γ w (modify g) Q :=
  ⟨hg, hQ⟩

/-- A sequence is safe when each part is, the second from any world the first
can leave. -/
theorem Safe.bind {k : α → Exec β} {R : β → World → Prop} (hx : Safe Γ w x Q)
    (hk : ∀ a w', w.Evolves Γ w' → Q a w' → Safe Γ w' (k a) R) : Safe Γ w (x >>= k) R := by
  unfold Safe
  rw [runFrom_bind]
  cases h : x.runFrom w with
  | mk r w' =>
    cases r with
    | error s => exact hx.of_error h
    | ok a =>
      obtain ⟨hev, hQ⟩ := hx.of_ok h
      exact (hk a w' hev hQ).since hev

/-- Recovery is safe from any world the failing part can leave. -/
theorem Safe.onFault {r : Fault → Exec α} (hx : Safe Γ w x Q)
    (hr : ∀ e w', w.Evolves Γ w' → Safe Γ w' (r e) Q) : Safe Γ w (onFault x r) Q := by
  unfold Safe
  rw [runFrom_onFault]
  cases h : x.runFrom w with
  | mk res w' =>
    cases res with
    | ok a => exact hx.of_ok h
    | error s =>
      obtain ⟨hev, hs⟩ := hx.of_error h
      cases s with
      | fault e => exact (hr e w' hev).since hev
      | abort a => exact ⟨hev, hs⟩
      | exhausted => exact ⟨hev, hs⟩

theorem ofStop_safe {r : Except Stop α} (hw : w.Conforms Γ) (hok : ∀ a, r = .ok a → Q a w)
    (herr : ∀ s, r = .error s → ¬ s.Internal) : Safe Γ w (ofStop r) Q := by
  cases r with
  | ok a => exact .pure hw (hok a rfl)
  | error s => exact .throw hw (herr s rfl)

theorem ofFault_safe {r : Except Fault α} (hw : w.Conforms Γ) (hok : ∀ a, r = .ok a → Q a w) :
    Safe Γ w (ofFault r) Q := by
  cases r with
  | ok a => exact .pure hw (hok a rfl)
  | error e => exact .fault hw

section Reading

variable {R : β → World → Prop}

theorem Safe.heap_bind {k : Heap → Exec β} (h : Safe Γ w (k w.heap) R) :
    Safe Γ w (heap >>= k) R := h

theorem Safe.get_bind {k : World → Exec β} (h : Safe Γ w (k w) R) : Safe Γ w (get >>= k) R := h

theorem Safe.typeOf_bind {k : Ty → Exec β} (h : Safe Γ w (k (w.heap.typeOf v)) R) :
    Safe Γ w (typeOf v >>= k) R := h

theorem Safe.ofFault_bind {r : Except Fault α} {k : α → Exec β} (hw : w.Conforms Γ)
    (hk : ∀ a, r = .ok a → Safe Γ w (k a) R) : Safe Γ w (ofFault r >>= k) R := by
  cases r with
  | ok a => exact hk a rfl
  | error e => exact Safe.fault (e := e) hw

theorem Safe.ofAbort_bind {r : Except Abort α} {k : α → Exec β} (hw : w.Conforms Γ)
    (herr : ∀ a, r = .error a → ¬ (Stop.abort a).Internal)
    (hk : ∀ a, r = .ok a → Safe Γ w (k a) R) : Safe Γ w (ofAbort r >>= k) R := by
  cases r with
  | ok a => exact hk a rfl
  | error a => exact Safe.throw (s := .abort a) hw (herr a rfl)

end Reading

/-! ## Slots and collections -/

theorem visit_safe {i : StmtInfo} {Q : Unit → World → Prop} (hw : w.Conforms Γ)
    (hQ : Q () ((visit i).leaves w)) : Safe Γ w (visit i) Q :=
  .of_modify (hw.evolves rfl (fun _ => rfl) fun _ _ h => h) hQ

theorem note_safe {e : Entry} (hw : w.Conforms Γ) : Safe Γ w (note e) fun _ _ => True :=
  .of_modify (hw.evolves rfl (fun _ => rfl) fun _ _ h => h) trivial

theorem setNext_safe {s : StmtId} (hw : w.Conforms Γ) :
    Safe Γ w (setNext f s) fun _ _ => True := by
  refine .of_modify (hw.evolves rfl (fun f' => ?_) fun _ _ h => h) trivial
  exact World.frame_modifyFrame_field Frame.slots
    (g := fun fr => { fr with nextStmt := some s }) (fun _ => rfl) w f f'

theorem setHeap_safe (hw : w.Conforms Γ) (hh : h.Conforms ∧ w.heap.Grows h) :
    Safe Γ w (setHeap h) fun _ w' => w'.heap = h :=
  .of_modify (hw.withHeap hh.1 hh.2) rfl

/-- Reading a variable gives a value of its type. -/
theorem readSlot_safe (hw : w.Conforms Γ) (hid : id ∈ (Γ f).idents) (name : String) :
    Safe Γ w (readSlot f id.slot name) fun v w' => w'.heap.HasType v id.ty := by
  unfold Safe
  rw [runFrom_readSlot]
  split
  · rename_i v hv
    exact ⟨.refl hw, hw.slots f id hid v hv⟩
  · exact ⟨.refl hw, fun h => h⟩

/-- Writing a variable takes a value of its type. No other identifier has the
slot, so the others keep theirs. -/
theorem writeSlot_safe (hw : w.Conforms Γ) (hid : id ∈ (Γ f).idents) (hv : w.heap.HasType v id.ty) :
    Safe Γ w (writeSlot f id.slot v) fun _ _ => True := by
  unfold Safe
  rw [runFrom_writeSlot]
  split
  · rename_i slots hset
    refine ⟨hw.withSlots fun id' hid' u hu => ?_, trivial⟩
    rw [Slots.get_set hset] at hu
    split at hu
    · rename_i hslot
      cases hu
      rwa [(Γ f).apart id' hid' id hid hslot]
    · exact hw.slots f id' hid' u hu
  · rename_i a hset
    refine ⟨.refl hw, ?_⟩
    rw [Slots.eq_capacity_of_set hset]
    exact fun h => h

theorem clearSlot_safe {i : Nat} (hw : w.Conforms Γ) :
    Safe Γ w (clearSlot f i) fun _ _ => True := by
  refine .of_modify ?_ trivial
  have hclear := hw.withSlots (f := f) (s := (w.frame f).slots.clear i)
    fun id hid v hv => hw.slots f id hid v (Slots.get_clear hv)
  have hsame : w.modifyFrame f (fun fr => { fr with slots := (w.frame f).slots.clear i }) =
      w.modifyFrame f fun fr => { fr with slots := fr.slots.clear i } :=
    World.modifyFrame_congr rfl
  rwa [hsame] at hclear

/-- Entries of a table may change as long as the table conforms. -/
theorem setTable_safe {r : TableRef} {t : Table} (hw : w.Conforms Γ) (ht : t.Conforms w.heap)
    (hty : t.ty = (w.heap.table r).ty) :
    Safe Γ w (setHeap (w.heap.setTable r t)) fun _ _ => True :=
  (setHeap_safe hw (hw.heap.setTable ht hty)).mono fun _ _ _ _ => trivial

theorem setVec_safe {r : VecRef} {x : Vec} (hw : w.Conforms Γ) (hx : x.Conforms w.heap)
    (helem : x.elem = (w.heap.vec r).elem) :
    Safe Γ w (setHeap (w.heap.setVec r x)) fun _ _ => True :=
  (setHeap_safe hw (hw.heap.setVec hx helem)).mono fun _ _ _ _ => trivial

/-! ## Elements -/

theorem vectorIndex_safe (hw : w.Conforms Γ) : Safe Γ w (vectorIndex v) fun _ _ => True := by
  unfold vectorIndex
  split
  · exact .pure hw trivial
  · split
    · exact .pure hw trivial
    · exact .fault hw
  · exact .typeOf_bind (.mismatch hw)

/-- An index that has a component names a position, or none by mistake. -/
theorem vectorPosition_safe {index : List Value} (hw : w.Conforms Γ) (hi : index ≠ []) :
    Safe Γ w (vectorPosition index) fun _ _ => True := by
  cases index with
  | nil => exact (hi rfl).elim
  | cons v rest => exact vectorIndex_safe hw

section Table

variable {r : TableRef} {y : Ty} {index : List Value}

theorem element_table_safe (hw : w.Conforms Γ) (hy : (w.heap.table r).yield = some y) :
    Safe Γ w (element (.table r) index) fun v w' => w'.heap.HasType v y := by
  refine .heap_bind ?_
  dsimp only
  rw [if_neg (by simp [Table.isSet, hy])]
  refine .ofFault_bind hw fun v hv => ?_
  cases v with
  | none => exact .fault hw
  | some v => exact .pure hw ((hw.heap.tables r).lookup hy hv)

/-- A set has no elements to look up. -/
theorem element_set_safe {Q : Value → World → Prop} (hw : w.Conforms Γ)
    (hy : (w.heap.table r).yield = none) : Safe Γ w (element (.table r) index) Q := by
  refine .heap_bind ?_
  dsimp only
  rw [if_pos (by simp [Table.isSet, hy])]
  exact .mismatch hw

theorem storeElement_table_safe (hw : w.Conforms Γ) (hy : (w.heap.table r).yield = some y)
    (hv : w.heap.HasType v y) :
    Safe Γ w (storeElement (.table r) index v) fun _ _ => True := by
  refine .heap_bind (.ofFault_bind hw fun t ht => ?_)
  have hcarries : w.heap.Carries (w.heap.table r).yield (some v) := by rwa [hy]
  obtain ⟨hconf, hty⟩ := (hw.heap.tables r).assign ht hcarries
  exact setTable_safe hw hconf hty

theorem addElement_safe (hw : w.Conforms Γ) (hy : (w.heap.table r).yield = none) :
    Safe Γ w (addElement (.table r) index) fun _ _ => True := by
  refine .heap_bind (.ofFault_bind hw fun t ht => ?_)
  have hcarries : w.heap.Carries (w.heap.table r).yield none := by
    rw [hy]
    trivial
  obtain ⟨hconf, hty⟩ := (hw.heap.tables r).assign ht hcarries
  exact setTable_safe hw hconf hty

theorem deleteElement_table_safe (hw : w.Conforms Γ) :
    Safe Γ w (deleteElement (.table r) index) fun _ _ => True := by
  refine .heap_bind (.ofFault_bind hw fun (found, t) ht => ?_)
  obtain ⟨hconf, hty⟩ := (hw.heap.tables r).remove ht
  exact setTable_safe hw hconf hty

end Table

section Vector

variable {r : VecRef} {elem : Ty} {index : List Value}

/-- After a position was found, the vector still has its element type. -/
theorem vectorPosition_bind {k : Nat → Exec β} {R : β → World → Prop} (hw : w.Conforms Γ)
    (hr : r.idx < w.heap.vecs.size) (helem : (w.heap.vec r).elem = elem) (hi : index ≠ [])
    (hk : ∀ i w', w'.Conforms Γ → w.heap.Grows w'.heap → (w'.heap.vec r).elem = elem →
      Safe Γ w' (k i) R) : Safe Γ w (vectorPosition index >>= k) R := by
  refine .bind (vectorPosition_safe hw hi) fun i w' hev _ => hk i w' hev.conforms hev.grows ?_
  rw [hev.grows.vec_elem r hr, helem]

theorem element_vector_safe (hw : w.Conforms Γ) (hr : r.idx < w.heap.vecs.size)
    (helem : (w.heap.vec r).elem = elem) (hi : index ≠ []) :
    Safe Γ w (element (.vector r) index) fun v w' => w'.heap.HasType v elem := by
  refine vectorPosition_bind hw hr helem hi fun i w' hw' _ helem' => .heap_bind ?_
  split
  · rename_i v hv
    exact .pure hw' (helem' ▸ (hw'.heap.vecs r).values i v hv)
  · exact .fault hw'

theorem storeElement_vector_safe (hw : w.Conforms Γ) (hr : r.idx < w.heap.vecs.size)
    (helem : (w.heap.vec r).elem = elem) (hi : index ≠ []) (hv : w.heap.HasType v elem) :
    Safe Γ w (storeElement (.vector r) index v) fun _ _ => True := by
  refine vectorPosition_bind hw hr helem hi fun i w' hw' hg helem' => .heap_bind ?_
  refine .ofAbort_bind hw' (fun a ha => ?_) fun x hx => ?_
  · rw [Vec.eq_capacity_of_assign ha]
    exact fun h => h
  · obtain ⟨hconf, helem''⟩ := (hw'.heap.vecs r).assign hx (helem'.symm ▸ hv.mono hg)
    exact setVec_safe hw' hconf helem''

theorem deleteElement_vector_safe (hw : w.Conforms Γ) (hr : r.idx < w.heap.vecs.size)
    (hi : index ≠ []) : Safe Γ w (deleteElement (.vector r) index) fun _ _ => True := by
  refine vectorPosition_bind hw hr rfl hi fun i w' hw' _ _ => .heap_bind ?_
  exact setVec_safe hw' ((hw'.heap.vecs r).remove i) rfl

end Vector

/-! ## Tests -/

theorem isMember_safe {c : Value} {elem : List Value} (hw : w.Conforms Γ) :
    Safe Γ w (isMember c elem) fun _ _ => True := by
  unfold isMember
  split
  · exact .heap_bind (ofFault_safe hw fun _ _ => trivial)
  · refine .onFault ?_ fun _ _ hev => .pure hev.conforms trivial
    exact .bind (vectorIndex_safe hw) fun _ _ hev _ => .heap_bind (.pure hev.conforms trivial)
  · exact .pure hw trivial
  · exact .typeOf_bind (.mismatch hw)

/-- The size of a value has the type its check gave. -/
theorem sizeOf_safe {operand ty : Ty} {span : Span} (hw : w.Conforms Γ)
    (hv : w.heap.HasType v operand) (hclean : operand.clean = true)
    (hsize : Verdict.size operand span = .ok ty) :
    Safe Γ w (sizeOf v) fun u w' => w'.heap.HasType u ty := by
  have hcount : ∀ n, w.heap.HasType (.count n) .count := fun _ => ⟨trivial, trivial, .inr rfl⟩
  cases operand <;> cases hsize
  case error => cases hclean
  case table index y =>
    obtain ⟨r, rfl, -⟩ := hv.exists_table
    exact .heap_bind (.pure hw (hcount _))
  case set index =>
    obtain ⟨r, rfl, -⟩ := hv.exists_set
    exact .heap_bind (.pure hw (hcount _))
  case vector elem =>
    obtain ⟨r, rfl, -⟩ := hv.exists_vector
    exact .heap_bind (.pure hw (hcount _))
  all_goals
    have hkind := hv.ofKind rfl
    cases v <;> cases hkind
    exact .pure hw ⟨trivial, trivial, .inr rfl⟩

end Exec

end Vigil
