import Vigil.Proofs.Exec.Compose
import Mathlib.Order.RelClasses

/-!
# Vigil.Proofs.Exec.Keeps — relations between the worlds before and after

A computation keeps to a relation when the world it starts in and the one it
leaves are related, whatever it ends in: a result, an error, an abort or an
exhausted budget (`Exec.Keeps`). For a preorder this composes
(`Exec.Keeps.sequential`), and so it holds of loops whose parts keep to it.

Equality is such a preorder, and what only reads keeps to it. An expression
keeps to any preorder that what it writes keeps to (`Expr.eval_keeps`). What
it writes are slots of its frame and elements of collections (`Expr.writes`);
a pure expression writes nothing.
-/

namespace Vigil

/-- An engine that had the property has it afterwards. -/
def World.Preserves (I : World → Prop) (w w' : World) : Prop := I w → I w'

instance (I : World → Prop) : IsPreorder World (World.Preserves I) where
  refl _ h := h
  trans _ _ _ h h' hw := h' (h hw)

namespace Exec

variable {α β : Type} {f : FrameRef} {R S : World → World → Prop}

/-- Whatever `x` ends in, the worlds before and after are related. -/
def Keeps (R : World → World → Prop) (x : Exec α) : Prop := ∀ w, R w (x.leaves w)

namespace Keeps

theorem mono {x : Exec α} (hx : Keeps R x) (h : ∀ w w', R w w' → S w w') : Keeps S x :=
  fun w => h _ _ (hx w)

/-- The worlds before and after a run. -/
theorem run {x : Exec α} (hx : Keeps R x) {w w' : World} {a : Except Stop α}
    (h : x.runFrom w = (a, w')) : R w w' := by
  have hw := hx w
  rwa [leaves, h] at hw

/-- A computation that looks at the heap first. -/
theorem heap_bind {k : Heap → Exec β} (hk : ∀ w, R w ((k w.heap).leaves w)) :
    Keeps R (Exec.heap >>= k) := hk

variable [IsPreorder World R]

/-- What changes nothing keeps to everything. -/
theorem of_unchanged {x : Exec α} (hx : Keeps Eq x) : Keeps R x :=
  hx.mono fun w _ h => h ▸ refl_of R w

theorem pure (a : α) : Keeps R (pure a : Exec α) := fun w => refl_of R w

theorem throw (s : Stop) : Keeps R (throw s : Exec α) := fun w => refl_of R w

theorem fault (e : Fault) : Keeps R (fault e : Exec α) := throw _

theorem abort (a : Abort) : Keeps R (abort a : Exec α) := throw _

theorem mismatch (m : Mismatch) : Keeps R (mismatch m : Exec α) := throw _

theorem heap : Keeps R heap := fun w => refl_of R w

theorem get : Keeps R (get : Exec World) := fun w => refl_of R w

theorem hasDelayed (g : FrameRef) : Keeps R (hasDelayed g) := fun w => refl_of R w

theorem typeOf (v : Value) : Keeps R (typeOf v) := fun w => refl_of R w

theorem ofStop (r : Except Stop α) : Keeps R (ofStop r) := by
  cases r
  · exact throw _
  · exact pure _

theorem ofFault (r : Except Fault α) : Keeps R (ofFault r) := by
  cases r
  · exact fault _
  · exact pure _

theorem ofAbort (r : Except Abort α) : Keeps R (ofAbort r) := by
  cases r
  · exact abort _
  · exact pure _

/-- What comes after `x` keeps to the relation. -/
theorem after_bind (x : Exec α) {k : α → Exec β} (hk : ∀ a, Keeps R (k a)) (w : World) :
    R (x.leaves w) ((x >>= k).leaves w) := by
  rcases leaves_bind x k w with h | ⟨a, h⟩
  · rw [h]
    exact refl_of R _
  · rw [h]
    exact hk a _

theorem after_onFault (x : Exec α) {recover : Fault → Exec α} (hr : ∀ e, Keeps R (recover e))
    (w : World) : R (x.leaves w) ((Exec.onFault x recover).leaves w) := by
  rcases leaves_onFault x recover w with h | ⟨e, h⟩
  · rw [h]
    exact refl_of R _
  · rw [h]
    exact hr e _

theorem bind {x : Exec α} {k : α → Exec β} (hx : Keeps R x) (hk : ∀ a, Keeps R (k a)) :
    Keeps R (x >>= k) := fun w => trans_of R (hx w) (after_bind x hk w)

theorem onFault {x : Exec α} {recover : Fault → Exec α} (hx : Keeps R x)
    (hr : ∀ e, Keeps R (recover e)) : Keeps R (onFault x recover) := fun w =>
  trans_of R (hx w) (after_onFault x hr w)

theorem sequential : Sequential (Keeps R) where
  still hx w := by
    rw [hx w]
    exact refl_of R w
  bind := bind
  onFault := onFault

/-! ### Computations that only read -/

theorem readSlot (f : FrameRef) (i : Nat) (name : String) : Keeps R (readSlot f i name) := by
  intro w
  unfold leaves
  rw [runFrom_readSlot]
  cases (w.frame f).slots.get i <;> exact refl_of R w

theorem vectorIndex (v : Value) : Keeps R (vectorIndex v) := by
  unfold Exec.vectorIndex
  split
  · exact pure _
  · split
    · exact pure _
    · exact fault _
  · exact bind (typeOf _) fun _ => mismatch _

theorem vectorPosition (vs : List Value) : Keeps R (vectorPosition vs) := by
  cases vs
  · exact abort _
  · exact vectorIndex _

theorem element (c : Value) (index : List Value) : Keeps R (element c index) := by
  unfold Exec.element
  split
  · refine bind heap fun h => ?_
    dsimp only
    split
    · exact mismatch _
    · refine bind (ofFault _) fun o => ?_
      split
      · exact pure _
      · exact fault _
  · refine bind (vectorPosition _) fun i => bind heap fun h => ?_
    split
    · exact pure _
    · exact fault _
  · exact bind (typeOf _) fun _ => mismatch _

theorem isMember (c : Value) (elem : List Value) : Keeps R (isMember c elem) := by
  unfold Exec.isMember
  split
  · exact bind heap fun _ => ofFault _
  · exact onFault (bind (vectorIndex _) fun _ => bind heap fun _ => pure _) fun _ => pure _
  · exact pure _
  · exact bind (typeOf _) fun _ => mismatch _

theorem sizeOf (v : Value) : Keeps R (sizeOf v) := by
  unfold Exec.sizeOf
  split
  · exact bind heap fun _ => pure _
  · exact bind heap fun _ => pure _
  all_goals first
    | exact pure _
    | exact bind (typeOf _) fun _ => mismatch _

theorem evaluates : Evaluates (Keeps R) :=
  ⟨pure, bind, mismatch, fun _ _ => bind heap fun _ => ofStop _,
    fun _ _ _ => bind heap fun _ => ofStop _, element, isMember, sizeOf⟩

end Keeps

end Exec

/-! ## Expressions -/

namespace Expr

mutual

theorem writes_of_isPure : (e : Expr) → e.isPure → e.writes = []
  | .const .., _ | .name .., _ | .error _, _ => by rw [writes]
  | .assign .., h => by simp [isPure] at h
  | .unary _ e _, h | .size e _, h => by
    rw [isPure] at h
    rw [writes, writes_of_isPure e h]
  | .binary _ l r _, h => by
    rw [isPure, Bool.and_eq_true] at h
    rw [writes, writes_of_isPure l h.1, writes_of_isPure r h.2, List.nil_append]
  | .index t is _, h | .member is t _, h => by
    rw [isPure, Bool.and_eq_true] at h
    rw [writes, writes_of_isPure t h.1, writesList_of_isPure is h.2, List.nil_append]

theorem writesList_of_isPure : (es : List Expr) → isPureList es → writesList es = []
  | [], _ => by rw [writesList]
  | e :: es, h => by
    rw [isPureList, Bool.and_eq_true] at h
    rw [writesList, writes_of_isPure e h.1, writesList_of_isPure es h.2, List.nil_append]

end

open Exec (Keeps)

variable {R : World → World → Prop} [IsPreorder World R] {f : FrameRef}

/-- An expression keeps to what its writes keep to. -/
theorem eval_keeps (e : Expr) (h : ∀ p ∈ e.writes, p.Has (Keeps R) f) : Keeps R (e.eval f) :=
  eval_has Keeps.evaluates e (fun _ _ => .readSlot _ _ _) h

theorem evalList_keeps (es : List Expr) (h : ∀ p ∈ writesList es, p.Has (Keeps R) f) :
    Keeps R (evalList f es) :=
  evalList_has Keeps.evaluates es (fun _ _ => .readSlot _ _ _) h

/-- Evaluating a pure expression changes nothing. -/
theorem eval_of_isPure {e : Expr} (h : e.isPure) : Keeps Eq (e.eval f) :=
  eval_keeps e (by simp [writes_of_isPure e h])

end Expr

/-! ## Parts of statements -/

namespace Stmt

open Exec (Keeps)

variable {R : World → World → Prop} [IsPreorder World R] {f : FrameRef}

theorem bindEntry_keeps {vars : List Ident} {valueVar : Option Ident}
    (hwrite : ∀ id ∈ vars ++ valueVar.toList, ∀ v, Keeps R (Exec.writeSlot f id.slot v))
    (index : List Value) (v : Option Value) : Keeps R (bindEntry f vars valueVar index v) :=
  Keeps.sequential.bindEntry hwrite index v

theorem bindCase_keeps {v : Value} {binding : Option Ident}
    (hwrite : ∀ id ∈ binding, ∀ v, Keeps R (Exec.writeSlot f id.slot v)) :
    Keeps R (bindCase f v binding) :=
  (Keeps.sequential.diagonal.bindCase fun id hid v => ⟨rfl, hwrite id hid v⟩).2

theorem deadline_keeps {timeout : Option Expr} (h : ∀ e ∈ timeout, Keeps R (e.eval f)) :
    Keeps R (deadline f timeout) := Keeps.sequential.deadline h

end Stmt

end Vigil
