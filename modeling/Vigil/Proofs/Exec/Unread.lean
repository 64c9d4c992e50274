import Vigil.Proofs.Exec.Simulates
import Vigil.Proofs.Trigger.Basic
import Vigil.Proofs.Typing.Heap

/-!
# Vigil.Proofs.Exec.Unread — execution does not depend on a slot it does not name

Two worlds may differ in what one slot of one frame holds, and in nothing else
(`World.SameBut`). A statement may write to the slot, as loops and switches do
when they bind a variable there, but as long as no expression in it names the
slot, it does the same in both worlds and leaves them the same but for the slot
(`Stmt.exec_unread`). Writing leaves the slot the same or different, which makes
no difference: what has to be shown is that nothing is read from it.
-/

namespace Vigil

/-! ## Rows -/

namespace Slots

/-- Two rows that hold the same in every slot but one, and have room for the same
slots. -/
structure SameBut (k : Nat) (a b : Slots) : Prop where
  get : ∀ i, i ≠ k → a.get i = b.get i
  room : max a.size maxSize = max b.size maxSize

variable {k i : Nat} {a b a' : Slots} {v : Value}

theorem SameBut.refl (k : Nat) (a : Slots) : SameBut k a a := ⟨fun _ _ => rfl, rfl⟩

/-- What is stored where there is room takes none from other slots. -/
theorem set_of_lt (h : i < max a.size maxSize) (v : Value) :
    ∃ a', a.set i v = .ok a' ∧ max a'.size maxSize = max a.size maxSize := by
  unfold set
  by_cases hi : i < a.size
  · rw [if_pos hi]
    refine ⟨_, rfl, ?_⟩
    rw [Array.size_setIfInBounds]
  · have hroom : i < maxSize := by omega
    rw [if_neg hi, if_pos hroom]
    refine ⟨_, rfl, ?_⟩
    rw [Array.size_push, Array.size_append, Array.size_replicate]
    omega

theorem set_of_not_lt (h : ¬ i < max a.size maxSize) (v : Value) :
    a.set i v = .error .capacity := by
  unfold set
  rw [if_neg (by omega), if_neg (by omega)]
  rfl

/-- A value is stored in both rows or in neither. -/
theorem SameBut.set (h : SameBut k a b) (i : Nat) (v : Value) :
    (a.set i v = .error .capacity ∧ b.set i v = .error .capacity) ∨
      ∃ a' b', a.set i v = .ok a' ∧ b.set i v = .ok b' ∧ SameBut k a' b' := by
  by_cases hi : i < max a.size maxSize
  · right
    obtain ⟨a', ha, hsize⟩ := set_of_lt hi v
    obtain ⟨b', hb, hsize'⟩ := set_of_lt (h.room ▸ hi) v
    refine ⟨a', b', ha, hb, fun j hj => ?_, ?_⟩
    · rw [get_set ha, get_set hb, h.get j hj]
    · rw [hsize, hsize', h.room]
  · left
    exact ⟨set_of_not_lt hi v, set_of_not_lt (h.room ▸ hi) v⟩

theorem SameBut.clear (h : SameBut k a b) (i : Nat) : SameBut k (a.clear i) (b.clear i) := by
  have hget : ∀ (s : Slots) (j : Nat), (s.clear i).get j = if j = i then none else s.get j := by
    intro s j
    unfold Slots.clear Slots.get
    rw [Array.getElem?_setIfInBounds]
    by_cases hj : j = i
    · subst hj
      rw [if_pos rfl, if_pos rfl]
      split <;> rfl
    · rw [if_neg hj, if_neg (Ne.symm hj)]
  constructor
  · intro j hj
    rw [hget, hget, h.get j hj]
  · unfold Slots.clear
    rw [Array.size_setIfInBounds, Array.size_setIfInBounds, h.room]

end Slots

/-! ## Worlds -/

namespace World

open Exec (Local Simulates)

variable {α : Type} {c : Frame → Frame}

/-- The world with other slots in one frame. -/
def withSlots (f : FrameRef) (slots : Slots) (w : World) : World :=
  w.modifyFrame f fun fr => { fr with slots := slots }

/-- Two worlds that are the same but for what the slot `k` of the frame `f`
holds. -/
def SameBut (f : FrameRef) (k : Nat) (w v : World) : Prop :=
  ∃ slots, v = w.withSlots f slots ∧ Slots.SameBut k (w.frame f).slots slots

variable {f g : FrameRef} {k : Nat} {w v : World}

theorem withSlots_self (w : World) (f : FrameRef) : w.withSlots f (w.frame f).slots = w :=
  modifyFrame_eq_self rfl

theorem withSlots_withSlots (w : World) (f : FrameRef) (s s' : Slots) :
    (w.withSlots f s).withSlots f s' = w.withSlots f s' := modifyFrame_modifyFrame w f _ _

theorem slots_withSlots (hf : w.HasFrame f) (s : Slots) : ((w.withSlots f s).frame f).slots = s :=
  congrArg Frame.slots (frame_modifyFrame_self hf _)

theorem SameBut.refl (f : FrameRef) (k : Nat) (w : World) : SameBut f k w w :=
  ⟨_, (w.withSlots_self f).symm, .refl k _⟩

theorem SameBut.eq_of_not_hasFrame (h : SameBut f k w v) (hf : ¬ w.HasFrame f) : v = w := by
  obtain ⟨slots, rfl, -⟩ := h
  exact modifyFrame_of_not_hasFrame hf _

/-- A change that leaves the slots of the frame alone. -/
theorem SameBut.change (h : SameBut f k w v) {c : World → World}
    (hc : ∀ s, c (w.withSlots f s) = (c w).withSlots f s)
    (hslots : ((c w).frame f).slots = (w.frame f).slots) : SameBut f k (c w) (c v) := by
  obtain ⟨slots, rfl, hsame⟩ := h
  refine ⟨slots, hc slots, ?_⟩
  rw [hslots]
  exact hsame

/-- Outside of the frame nothing differs. -/
theorem SameBut.sameStore (h : SameBut f k w v) (hg : g ≠ f) : SameStore g w v := by
  obtain ⟨slots, rfl, -⟩ := h
  refine ⟨rfl, ?_, hasFrame_modifyFrame⟩
  rw [withSlots, frame_modifyFrame_of_ne hg]

theorem SameBut.field (h : SameBut f k w v) (g : FrameRef) (field : Frame → α)
    (hfield : ∀ fr s, field { fr with slots := s } = field fr) :
    field (v.frame g) = field (w.frame g) := by
  obtain ⟨slots, rfl, -⟩ := h
  exact frame_modifyFrame_field field (fun fr => hfield fr slots) w f g

/-- The limits of the two worlds, their clocks and all that is in no frame. -/
theorem SameBut.frames (h : SameBut f k w v) : ∃ frames, v = { w with frames := frames } := by
  obtain ⟨slots, rfl, -⟩ := h
  exact ⟨_, rfl⟩

/-- A change of a frame that leaves its slots alone may come before or after one
of slots. -/
theorem modifyFrame_withSlots (w : World) (f g : FrameRef)
    (hc : ∀ fr s, c { fr with slots := s } = { c fr with slots := s }) (s : Slots) :
    (w.withSlots f s).modifyFrame g c = (w.modifyFrame g c).withSlots f s := by
  by_cases hg : g = f
  · subst hg
    exact modifyFrame_comm c (fun fr => { fr with slots := s }) (fun fr => hc fr s) w g
  · exact modifyFrame_comm_of_ne hg _ _ w

theorem SameBut.modifyFrame (h : SameBut f k w v) (g : FrameRef)
    (hc : ∀ fr s, c { fr with slots := s } = { c fr with slots := s }) :
    SameBut f k (w.modifyFrame g c) (v.modifyFrame g c) := by
  have hkeeps : ∀ fr, (c fr).slots = fr.slots := by
    intro fr
    have hslots := congrArg Frame.slots (hc fr fr.slots)
    exact hslots
  exact h.change (modifyFrame_withSlots w f g hc) (frame_modifyFrame_field Frame.slots hkeeps w g f)

theorem sharesHeap_sameBut : Exec.SharesHeap (SameBut f k) := by
  rintro w v ⟨slots, rfl, -⟩
  rfl

/-- Triggers are installed without a look at slots. -/
theorem install_withSlots (w : World) (f : FrameRef) (s : Slots) (c : Captured)
    (deadline : Option Instant) (isReturn : Bool) (span : Span) :
    (w.withSlots f s).install c deadline isReturn span =
      (w.install c deadline isReturn span).withSlots f s := by
  have hsession : ((w.withSlots f s).frame c.frame).session = (w.frame c.frame).session :=
    frame_modifyFrame_field Frame.session (g := fun fr => { fr with slots := s }) (fun _ => rfl)
      w f c.frame
  have hlets : (w.withSlots f s).letsIn c = w.letsIn c := by
    unfold letsIn
    rw [hsession]
    rfl
  have hnew : (w.withSlots f s).installed c deadline isReturn span =
      w.installed c deadline isReturn span := by
    unfold installed
    rw [hlets, hsession]
  have hdeferred := congrArg World.frames
    (modifyFrame_withSlots w f c.frame (c := fun fr => { fr with delayed := some w.nextTrigger })
      (fun _ _ => rfl) s)
  rw [install_eq, install_eq, hlets, hnew]
  cases isReturn with
  | false => rfl
  | true => exact congrArg (fun frames : Array Frame => ({ w with
      frames := frames
      triggers := w.triggers.push (w.installed c deadline true span)
      fresh := w.fresh ++ if w.letsIn c then [w.nextTrigger] else []
      stats := if w.letsIn c then { w.stats with registered := w.stats.registered + 1 }
        else { w.stats with refused := w.stats.refused + 1 }
      journal := [.defer c.frame w.nextTrigger] ++ w.journal } : World)) hdeferred

theorem SameBut.install (h : SameBut f k w v) (c : Captured) (deadline : Option Instant)
    (isReturn : Bool) (span : Span) :
    SameBut f k (w.install c deadline isReturn span) (v.install c deadline isReturn span) := by
  refine h.change (fun s => install_withSlots w f s c deadline isReturn span) ?_
  rw [frame_install]
  split
  · exact frame_modifyFrame_field Frame.slots
      (g := fun fr => { fr with delayed := some w.nextTrigger }) (fun _ => rfl) w c.frame f
  · rfl

/-! ## Computations -/

/-- What happens in other frames. -/
theorem simulates_of_local_ne {x : Exec α} (hg : g ≠ f) (hx : Local g x) :
    Simulates (SameBut f k) x x := by
  intro w v h
  obtain ⟨r, heap, slots, -, hx⟩ := hx w
  unfold Exec.leaves
  rw [hx w (.refl g w), hx v (h.sameStore hg)]
  refine ⟨rfl, h.change (c := World.withStore g heap slots) (fun s => ?_) ?_⟩
  · have hcomm := modifyFrame_comm_of_ne hg (fun fr => { fr with slots := slots })
      (fun fr => { fr with slots := s }) w
    exact congrArg (fun u : World => { u with heap := heap }) hcomm
  · exact congrArg Frame.slots (frame_modifyFrame_of_ne (Ne.symm hg) _)

/-- What happens in no frame at all. -/
theorem simulates_of_heap {x : Exec α} (hx : ∀ g, Local g x) : Simulates (SameBut f k) x x := by
  have hother : (⟨f.idx + 1⟩ : FrameRef) ≠ f := by
    intro heq
    have hidx := congrArg FrameRef.idx heq
    dsimp only at hidx
    omega
  exact simulates_of_local_ne hother (hx _)

theorem readSlot_unread {i : Nat} (hi : i ≠ k) (name : String) :
    Simulates (SameBut f k) (Exec.readSlot f i name) (Exec.readSlot f i name) := by
  intro w v h
  have hget : (v.frame f).slots.get i = (w.frame f).slots.get i := by
    by_cases hf : w.HasFrame f
    · obtain ⟨slots, rfl, hsame⟩ := h
      rw [slots_withSlots hf]
      exact (hsame.get i hi).symm
    · rw [h.eq_of_not_hasFrame hf]
  unfold Exec.leaves
  rw [Exec.runFrom_readSlot, Exec.runFrom_readSlot, hget]
  cases (w.frame f).slots.get i with
  | none => exact ⟨rfl, h⟩
  | some x => exact ⟨rfl, h⟩

theorem writeSlot_unread (i : Nat) (x : Value) :
    Simulates (SameBut f k) (Exec.writeSlot f i x) (Exec.writeSlot f i x) := by
  intro w v h
  unfold Exec.leaves
  by_cases hf : w.HasFrame f
  · obtain ⟨slots, rfl, hsame⟩ := h
    rw [Exec.runFrom_writeSlot, Exec.runFrom_writeSlot, slots_withSlots hf]
    rcases hsame.set i x with ⟨ha, hb⟩ | ⟨a, b, ha, hb, hnew⟩
    · rw [ha, hb]
      exact ⟨rfl, slots, rfl, hsame⟩
    · rw [ha, hb]
      refine ⟨rfl, b, ?_, ?_⟩
      · show (w.withSlots f slots).withSlots f b = (w.withSlots f a).withSlots f b
        rw [withSlots_withSlots, withSlots_withSlots]
      · show Slots.SameBut k ((w.withSlots f a).frame f).slots b
        rw [slots_withSlots hf]
        exact hnew
  · rw [h.eq_of_not_hasFrame hf]
    exact ⟨rfl, .refl f k _⟩

theorem clearSlot_unread (i : Nat) :
    Simulates (SameBut f k) (Exec.clearSlot f i) (Exec.clearSlot f i) := by
  refine .modify fun w v h => ?_
  by_cases hf : w.HasFrame f
  · obtain ⟨slots, rfl, hsame⟩ := h
    have hclear : ∀ u : World,
        u.modifyFrame f (fun fr => { fr with slots := fr.slots.clear i }) =
          u.withSlots f ((u.frame f).slots.clear i) := fun u => modifyFrame_congr rfl
    rw [hclear, hclear, slots_withSlots hf, withSlots_withSlots]
    refine ⟨slots.clear i, (withSlots_withSlots _ _ _ _).symm, ?_⟩
    rw [slots_withSlots hf]
    exact hsame.clear i
  · rw [h.eq_of_not_hasFrame hf]
    exact .refl f k _

end World

/-! ## Expressions -/

namespace Expr

open Exec (Simulates)
open World (SameBut)

variable {f : FrameRef} {k : Nat}

theorem evaluates_unread : Exec.Evaluates fun x => Simulates (SameBut f k) x x :=
  ⟨.pure, .bind, fun _ => .throw _,
    fun _ _ => .heap_bind World.sharesHeap_sameBut fun _ => .ofStop _,
    fun _ _ _ => .heap_bind World.sharesHeap_sameBut fun _ => .ofStop _,
    fun _ _ => World.simulates_of_heap fun _ => .element _ _,
    fun _ _ => World.simulates_of_heap fun _ => .isMember _ _,
    fun _ => World.simulates_of_heap fun _ => .sizeOf _⟩

theorem place_unread (p : Place) : p.Has (fun x => Simulates (SameBut f k) x x) f := by
  cases p with
  | slot i => exact World.writeSlot_unread i
  | element => exact fun _ _ _ => World.simulates_of_heap fun _ => .storeElement _ _ _

/-- An expression that does not name the slot does not read it. -/
theorem eval_unread (e : Expr) (h : ∀ id ∈ e.idents, id.slot ≠ k) :
    Simulates (SameBut f k) (e.eval f) (e.eval f) :=
  eval_has evaluates_unread e (fun id hid => World.readSlot_unread (h id hid) _)
    fun p _ => place_unread p

theorem evalList_unread (es : List Expr) (h : ∀ id ∈ identsOf es, id.slot ≠ k) :
    Simulates (SameBut f k) (evalList f es) (evalList f es) :=
  evalList_has evaluates_unread es (fun id hid => World.readSlot_unread (h id hid) _)
    fun p _ => place_unread p

theorem addTo_unread (e : Expr) (h : ∀ id ∈ e.idents, id.slot ≠ k) :
    Simulates (SameBut f k) (e.addTo f) (e.addTo f) := by
  cases e with
  | index t is info =>
    rw [idents, List.forall_mem_append] at h
    exact .bind (t.eval_unread h.1) fun _ => .bind (evalList_unread is h.2) fun _ =>
      World.simulates_of_heap fun _ => .addElement _ _
  | _ => exact .throw _

theorem deleteFrom_unread (e : Expr) (h : ∀ id ∈ e.idents, id.slot ≠ k) :
    Simulates (SameBut f k) (e.deleteFrom f) (e.deleteFrom f) := by
  cases e with
  | index t is info =>
    rw [idents, List.forall_mem_append] at h
    exact .bind (t.eval_unread h.1) fun _ => .bind (evalList_unread is h.2) fun _ =>
      World.simulates_of_heap fun _ => .deleteElement _ _
  | _ => exact .throw _

end Expr

/-! ## Statements -/

namespace Stmt

open Exec World

/-- The statement does not name the slot `k`, if the frame `g` that it runs in is
`f`. -/
def Avoids (f : FrameRef) (k : Nat) (g : FrameRef) (s : Stmt) : Prop := g = f → k ∉ s.namedSlots

variable {f g : FrameRef} {k fuel : Nat} {s t : Stmt} {e : Expr}

theorem namedSlots_subset (h : t.preorder ⊆ s.preorder) : t.namedSlots ⊆ s.namedSlots := by
  refine List.map_subset _ fun id hid => ?_
  obtain ⟨u, hu, hid⟩ := List.mem_flatMap.mp hid
  exact List.mem_flatMap.mpr ⟨u, h hu, hid⟩

theorem slot_mem_namedSlots (he : e ∈ s.exprs) {id : Ident} (hid : id ∈ e.idents) :
    id.slot ∈ s.namedSlots := by
  refine List.mem_map_of_mem (List.mem_flatMap.mpr ⟨s, s.self_mem_preorder, ?_⟩)
  rw [Expr.identsOf_eq]
  exact List.mem_flatMap.mpr ⟨e, he, hid⟩

theorem Avoids.below (h : Avoids f k g s) (ht : t.preorder ⊆ s.preorder) : Avoids f k g t :=
  fun hg hk => h hg (namedSlots_subset ht hk)

/-- What is done with an expression of the statement: in other frames anything
that stays there, in the frame `f` what reads no more than the expression
names. -/
theorem Avoids.simulates {α : Type} {x : FrameRef → Exec α} (h : Avoids f k g s) (he : e ∈ s.exprs)
    (hlocal : Local g (x g))
    (hx : (∀ id ∈ e.idents, id.slot ≠ k) → Simulates (SameBut f k) (x f) (x f)) :
    Simulates (SameBut f k) (x g) (x g) := by
  by_cases hg : g = f
  · subst hg
    refine hx ?_
    rintro id hid rfl
    exact h rfl (slot_mem_namedSlots he hid)
  · exact simulates_of_local_ne hg hlocal

theorem Avoids.eval (h : Avoids f k g s) (he : e ∈ s.exprs) :
    Simulates (SameBut f k) (e.eval g) (e.eval g) :=
  h.simulates (x := fun g => e.eval g) he (e.eval_local g) e.eval_unread

/-- Writing is no reading, in whatever frame. -/
theorem writeSlot_sameBut (g : FrameRef) (i : Nat) (v : Value) :
    Simulates (SameBut f k) (writeSlot g i v) (writeSlot g i v) := by
  by_cases hg : g = f
  · subst hg
    exact writeSlot_unread i v
  · exact simulates_of_local_ne hg (.writeSlot i v)

theorem giveFresh_sameBut (g : FrameRef) (ids : List Ident) :
    Simulates (SameBut f k) (giveFresh g ids) (giveFresh g ids) := by
  by_cases hg : g = f
  · subst hg
    induction ids with
    | nil => exact .pure _
    | cons id rest ih =>
      rw [giveFresh]
      refine .heap_bind sharesHeap_sameBut fun h => ?_
      split
      · exact .bind (simulates_of_heap fun _ => .setHeap _) fun _ =>
          .bind (writeSlot_unread _ _) fun _ => ih
      · exact .bind (clearSlot_unread _) fun _ => ih
  · exact simulates_of_local_ne hg (giveFresh_local ids)

theorem rules_unread : Rules g (Simulates (SameBut f k)) where
  bind := .bind
  onFault := .onFault
  fault _ := .throw _
  clock hk := .look fun w v h => by
    obtain ⟨_, rfl⟩ := h.frames
    exact hk _ _ rfl
  setNext _ := .modify fun _ _ h => h.modifyFrame g fun _ _ => rfl
  raise name args := .modify fun _ _ h =>
    h.change (c := fun u => { u with events := u.events.push ⟨name, args⟩ }) (fun _ => rfl) rfl
  table _ _ _ := simulates_of_heap fun _ => .modifyTable _ _
  pure := .pure
  abort _ := .throw _
  heap := simulates_of_heap fun _ => .heap
  writeSlot := writeSlot_sameBut g
  giveFresh := giveFresh_sameBut g

theorem hasDelayed_unread : Simulates (SameBut f k) (hasDelayed g) (hasDelayed g) :=
  .look fun w v h => by
    rw [h.field g Frame.delayed fun _ _ => rfl]
    exact .pure _

theorem congruence_unread :
    Congruence (Avoids f k g) (fun s => s) fuel fuel g (Simulates (SameBut f k)) where
  toRules := rules_unread
  parts _ hs _ _ ht := hs.below (preorder_subset_of_mem_parts ht)
  info _ := rfl
  shape s _ _ := s.mapParts_self.symm
  visit s _ := .modify fun _ _ h =>
    h.change (c := fun u => { u with journal := .start s.info.id u.now :: u.journal })
      (fun _ => rfl) rfl
  eval _ hs _ he := hs.eval he
  addTo i e hs := hs.simulates (x := fun g => e.addTo g) (s := .add i e) List.mem_cons_self
    (e.addTo_local g) e.addTo_unread
  deleteFrom i e hs := hs.simulates (x := fun g => e.deleteFrom g) (s := .delete i e)
    List.mem_cons_self (e.deleteFrom_local g) e.deleteFrom_unread
  list i body hs hbody := by
    have hparts : ∀ t ∈ body, Avoids f k g t := fun t ht =>
      hs.below (preorder_subset_of_mem_parts (s := .list i body) ht)
    have hlist := rules_unread.execList hasDelayed_unread (fun _ => rfl) fun t ht =>
      hbody t ht (hparts t ht)
    rwa [List.map_id'] at hlist
  install s hs htag := by
    cases s with
    | «when» i test body timeout timeoutBody isReturn =>
      have htimeout : ∀ e ∈ timeout, Simulates (SameBut f k) (e.eval g) (e.eval g) :=
        fun e he => hs.eval (List.mem_cons_of_mem _ (Option.mem_toList.mpr he))
      refine .bind (.bind (rules_unread.deadline htimeout) fun limit => ?_) fun _ => .pure _
      exact .modify fun _ _ h => h.install _ limit isReturn i.span
    | _ => cases htag
  print i args hs := by
    have hargs := rules_unread.evalList fun e he => hs.eval (s := .print i args) he
    refine .bind hargs fun vals => printLine_simulates sharesHeap_sameBut (fun line => ?_) vals
    exact .modify fun _ _ h =>
      h.change (c := fun u => { u with output := u.output.push line }) (fun _ => rfl) rfl
  whileLoop htest hb := by
    refine whileLoop_simulates sharesHeap_sameBut (fun w v h => ?_) htest hb fuel
    obtain ⟨_, rfl⟩ := h.frames
    rfl
  vectorLoop r _ _ _ hbind hb :=
    (Simulates.composes sharesHeap_sameBut).vectorRounds (.throw _) r hbind hb _ _

/-- A statement that does not name the slot does the same whatever the slot
holds. -/
theorem exec_unread (fuel : Nat) (hs : Avoids f k g s) :
    Simulates (SameBut f k) (exec fuel g s) (exec fuel g s) := congruence_unread.exec hs

end Stmt

end Vigil
