import Vigil.Proofs.Exec.Guarantee
import Vigil.Proofs.Exec.Keeps
import Vigil.Script
import Vigil.Proofs.Trigger.Basic
import Vigil.Proofs.Typing.Heap

/-!
# Vigil.Proofs.Exec.Purity — what pure expressions and statements leave alone

A pure expression writes nowhere, so evaluating it changes nothing, and it may be
evaluated any number of times (`Expr.pure_only_reads`).

A pure statement evaluates pure expressions and binds variables of loops and
cases; the rest of what it does is bookkeeping: the journal, the statement
noted in the frame, the iterations a table counts, and triggers. So it keeps
to every preorder that overlooks these and that its bindings keep to
(`Stmt.exec_of_isPure`) — but for the timeouts of its `when`s. Purity does not
look at a timeout, and yet it is evaluated on the spot, when the trigger is
installed.
-/

namespace Vigil

open Exec (Keeps)

/-! ## Expressions -/

namespace Exec

variable {α β : Type}

/-- What changes nothing ends the same way when it is done again. -/
theorem runFrom_leaves_of_unchanged {x : Exec α} (hx : Keeps Eq x) (w : World) :
    x.runFrom (x.leaves w) = x.runFrom w := by rw [← hx w]

/-- What changes nothing need not be done twice. -/
theorem bind_bind_of_unchanged {x : Exec α} (hx : Keeps Eq x) (k : α → α → Exec β) :
    (do let a ← x; let b ← x; k a b) = (do let a ← x; k a a) := by
  funext w
  change Exec.runFrom _ w = Exec.runFrom _ w
  have hw : (x.runFrom w).2 = w := (hx w).symm
  rw [runFrom_bind, runFrom_bind]
  rcases hrun : x.runFrom w with ⟨s | a, w'⟩
  · rfl
  · -- the second time starts in the world of the first
    rw [hrun] at hw
    cases hw
    dsimp only
    rw [runFrom_bind, hrun]

end Exec

namespace Expr

/-- Evaluating a pure expression changes nothing, no slot, no collection and nothing
else of the engine, whether it gives a value, an error or an abort. Evaluated again
it ends the same way, and a computation that evaluates it twice may as well use the
first value twice. -/
theorem pure_only_reads {e : Expr} (h : e.isPure) (f : FrameRef) :
    (∀ w : World, (e.eval f).leaves w = w) ∧
      (∀ w : World, (e.eval f).runFrom ((e.eval f).leaves w) = (e.eval f).runFrom w) ∧
      ∀ (β : Type) (k : Value → Value → Exec β),
        (do let a ← e.eval f; let b ← e.eval f; k a b) = (do let a ← e.eval f; k a a) := by
  have hkeeps : Keeps Eq (e.eval f) := eval_of_isPure h
  exact ⟨fun w => (hkeeps w).symm, Exec.runFrom_leaves_of_unchanged hkeeps,
    fun _ k => Exec.bind_bind_of_unchanged hkeeps k⟩

/-- `"b" in "a" || |"ab"| / n > n`, which reads a slot, and divides by it only if the
first operand does not decide. -/
def sizeOverSlot : Expr :=
  let n : Expr := .name ⟨"n", 0, .count, none⟩ ⟨.count, .unknown⟩
  let text (s : String) : Expr := .constant (.str (Utf8.encode s)) .unknown
  .binary .or (.member [text "b"] (text "a") ⟨.bool, .unknown⟩)
    (.binary .gt
      (.binary .div (.size (text "ab") ⟨.count, .unknown⟩) n ⟨.count, .unknown⟩) n
      ⟨.bool, .unknown⟩)
    ⟨.bool, .unknown⟩

/-- With zero in the slot it stops in the middle, the second time as the first. -/
theorem pure_only_reads_sizeOverSlot :
    ∃ w : World, sizeOverSlot.isPure ∧
      (sizeOverSlot.eval ⟨0⟩).runFrom w = (.error (.fault .divisionByZero), w) ∧
      (sizeOverSlot.eval ⟨0⟩).runFrom ((sizeOverSlot.eval ⟨0⟩).leaves w) =
        (.error (.fault .divisionByZero), w) := by
  let w : World := { World.start default default with
    frames := #[⟨#[some (.count 0)], none, none, none⟩] }
  have hpure : sizeOverSlot.isPure := by decide +kernel
  have hstop : ((sizeOverSlot.eval ⟨0⟩).runFrom w).1 = .error (.fault .divisionByZero) := by
    decide +kernel
  obtain ⟨hsame, hagain, -⟩ := pure_only_reads hpure ⟨0⟩
  have hrun : (sizeOverSlot.eval ⟨0⟩).runFrom w = (.error (.fault .divisionByZero), w) :=
    (Exec.runFrom_of_answer hstop).trans (by rw [hsame])
  exact ⟨w, hpure, hrun, (hagain w).trans hrun⟩

end Expr

/-! ## Bookkeeping -/

/-- The relation does not see what statements in the frame `f` do besides
evaluating and binding. -/
structure Overlooks (R : World → World → Prop) (f : FrameRef) : Prop where
  visit : ∀ (w : World) (i : StmtId), R w { w with journal := .start i w.now :: w.journal }
  next : ∀ (w : World) (i : StmtId), R w (w.modifyFrame f fun fr => { fr with nextStmt := some i })
  iterate : ∀ (w : World) (r : TableRef) (n : Nat),
    R w { w with heap := w.heap.setTable r { w.heap.table r with active := n } }
  install : ∀ (w : World) (c : Captured) (deadline : Option Instant) (isReturn : Bool)
    (span : Span), R w (w.install c deadline isReturn span)

namespace Stmt

variable {s : Stmt} {t : Stmt}

/-- The timeout of a `when`. -/
def timeout? : Stmt → Option Expr
  | .when _ _ _ timeout _ _ => timeout
  | _ => none

/-- What the statement binds, and the timeouts in it, keep to a relation. -/
def Binds (R : World → World → Prop) (f : FrameRef) (s : Stmt) : Prop :=
  ∀ t ∈ s.preorder, (∀ id ∈ t.binds, ∀ v, Keeps R (Exec.writeSlot f id.slot v)) ∧
    ∀ e ∈ t.timeout?, Keeps R (e.eval f)

variable {R : World → World → Prop} {f : FrameRef}

theorem Binds.self (h : s.Binds R f) :
    (∀ id ∈ s.binds, ∀ v, Keeps R (Exec.writeSlot f id.slot v)) ∧
      ∀ e ∈ s.timeout?, Keeps R (e.eval f) := h s s.self_mem_preorder

theorem Binds.part (h : s.Binds R f) (ht : t ∈ s.parts) : t.Binds R f :=
  fun u hu => h u (preorder_subset_of_mem_parts ht hu)

theorem isPure_of_isPureList {ss : List Stmt} (h : isPureList ss) : ∀ t ∈ ss, t.isPure := by
  induction ss with
  | nil => exact fun _ ht => by cases ht
  | cons s ss ih =>
    rw [isPureList, Bool.and_eq_true] at h
    exact List.forall_mem_cons.mpr ⟨h.1, ih h.2⟩

theorem isPure_of_isPureCases {cases : List Case} (h : isPureCases cases) :
    ∀ c ∈ cases, c.body.isPure := by
  induction cases with
  | nil => exact fun _ hc => by cases hc
  | cons c rest ih =>
    obtain ⟨labels, body, span⟩ := c
    rw [isPureCases, Bool.and_eq_true, Bool.and_eq_true] at h
    exact List.forall_mem_cons.mpr ⟨h.1.2, ih h.2⟩

/-- Purity asks for pure parts. -/
theorem isPure_of_mem_parts (h : s.isPure) (ht : t ∈ s.parts) : t.isPure := by
  cases s with
  | list i body | bodyList i body => exact isPure_of_isPureList h t ht
  | cond i test thenBody elseBody =>
    rw [isPure, Bool.and_eq_true, Bool.and_eq_true] at h
    rcases List.mem_pair.mp ht with rfl | rfl
    · exact h.1.2
    · exact h.2
  | «while» i test body | «for» i vars valueVar test body =>
    rw [isPure, Bool.and_eq_true] at h
    cases List.mem_singleton.mp ht
    exact h.2
  | switch i selector cases dispatch =>
    rw [isPure, Bool.and_eq_true] at h
    obtain ⟨c, hc, rfl⟩ := List.mem_map.mp ht
    exact isPure_of_isPureCases h.2 c hc
  | _ => cases ht

theorem isPure_of_operand {e : Expr} (h : s.isPure) (he : e ∈ s.operand?) : e.isPure := by
  cases s with
  | expr | cond | «while» | «for» | switch =>
    cases he
    simp_all [isPure]
  | «return» i value =>
    cases he
    exact h
  | _ => cases he

variable [IsPreorder World R]

theorem exec_keeps_of_act (hR : Overlooks R f) {fuel : Nat} (h : Keeps R (act fuel f s)) :
    Keeps R (exec fuel f s) := by
  rw [exec_eq]
  exact .bind (hR.visit · s.id) fun _ => h

/-- A pure statement keeps to whatever overlooks its bookkeeping, as long as
its bindings and timeouts do. -/
theorem exec_of_isPure (hR : Overlooks R f) (fuel : Nat) (hpure : s.isPure) (hb : s.Binds R f) :
    Keeps R (exec fuel f s) := by
  induction s using tree_induction with
  | h s ih =>
    refine exec_keeps_of_act hR (Keeps.sequential.act (fun i w => hR.next w i) (fun e he => ?_)
      hb.self.1 (fun r _ _ _ hw hbody => ?_) (fun hown => ?_) fun t ht => ?_)
    · exact .of_unchanged (Expr.eval_of_isPure (isPure_of_operand hpure he))
    · refine Keeps.sequential.overTable (fun g hg w => ?_) hw hbody
      rcases hg with rfl | rfl <;> exact hR.iterate w r _
    · cases s with
      | «when» i test body timeout timeoutBody isReturn =>
        rw [act]
        refine .bind (.bind (deadline_keeps hb.self.2) fun d => ?_) fun _ => .pure _
        exact fun w => hR.install w _ d isReturn i.span
      | print | event | add | delete | init => simp [isPure] at hpure
      | _ => simp [tag, ownWork] at hown
    · exact ih t (s.parts_subset_children ht) (isPure_of_mem_parts hpure ht) (hb.part ht)

end Stmt

/-! ## What is left alone -/

/-- The table without the iterations under way. -/
def Table.atRest (t : Table) : Table := { t with active := 0 }

/-- What the collections hold, whatever iterations are under way. -/
def Heap.contents (h : Heap) : Heap := { h with tables := h.tables.map Table.atRest }

theorem Heap.contents_setTable {h : Heap} {r : TableRef} {t : Table}
    (ht : t.atRest = (h.table r).atRest) : (h.setTable r t).contents = h.contents := by
  have htables : (h.tables.setIfInBounds r.idx t).map Table.atRest = h.tables.map Table.atRest := by
    refine Array.ext_getElem? fun i => ?_
    simp only [Array.getElem?_map, Array.getElem?_setIfInBounds]
    split
    · rename_i hi
      subst hi
      split
      · rename_i hi
        simp [ht, Heap.table, hi]
      · rename_i hi
        simp [hi]
    · rfl
  unfold contents setTable
  rw [htables]

/-- Collections and slots are the same. -/
structure World.SameData (w w' : World) : Prop where
  heap : w'.heap = w.heap
  slots : ∀ g, (w'.frame g).slots = (w.frame g).slots

instance : IsPreorder World World.SameData where
  refl _ := ⟨rfl, fun _ => rfl⟩
  trans _ _ _ h h' := ⟨h'.heap.trans h.heap, fun g => (h'.slots g).trans (h.slots g)⟩

namespace World.SameData

theorem of_install (w : World) (c : Captured) (deadline : Option Instant) (isReturn : Bool)
    (span : Span) : SameData w (w.install c deadline isReturn span) := by
  refine ⟨by rw [install_eq], fun g => ?_⟩
  rw [frame_install]
  split
  · rw [frame_modifyFrame_field Frame.slots
      (g := fun fr => { fr with delayed := some w.nextTrigger }) fun _ => rfl]
  · rfl

end World.SameData

/-- Nothing is printed or raised, and of the collections and the slots at most
the given places of the frame `f` differ. -/
structure World.Spares (f : FrameRef) (places : List Place) (w w' : World) : Prop where
  output : w'.output = w.output
  events : w'.events = w.events
  contents : .element ∉ places → w'.heap.contents = w.heap.contents
  slots : ∀ (g : FrameRef) (i : Nat), (g = f → .slot i ∉ places) →
    (w'.frame g).slots.get i = (w.frame g).slots.get i

namespace World

variable {f : FrameRef} {places : List Place}

instance : IsPreorder World (Spares f places) where
  refl _ := ⟨rfl, rfl, fun _ => rfl, fun _ _ _ => rfl⟩
  trans _ _ _ h h' := ⟨h'.output.trans h.output, h'.events.trans h.events,
    fun hp => (h'.contents hp).trans (h.contents hp),
    fun g i hp => (h'.slots g i hp).trans (h.slots g i hp)⟩

theorem overlooks_spares : Overlooks (Spares f places) f where
  visit w i := ⟨rfl, rfl, fun _ => rfl, fun _ _ _ => rfl⟩
  next w i := by
    refine ⟨rfl, rfl, fun _ => rfl, fun g j _ => ?_⟩
    rw [frame_modifyFrame_field Frame.slots (g := fun fr => { fr with nextStmt := some i })
      fun _ => rfl]
  iterate w r n := ⟨rfl, rfl, fun _ => Heap.contents_setTable rfl, fun _ _ _ => rfl⟩
  install w c deadline isReturn span := by
    have hsame := SameData.of_install w c deadline isReturn span
    refine ⟨?_, ?_, fun _ => ?_, fun g j _ => ?_⟩
    · rw [install_eq]
    · rw [install_eq]
    · rw [hsame.heap]
    · rw [hsame.slots]

theorem writeSlot_spares {i : Nat} (hi : .slot i ∈ places) (v : Value) :
    Keeps (Spares f places) (Exec.writeSlot f i v) := by
  intro w
  unfold Exec.leaves
  rw [Exec.runFrom_writeSlot]
  rcases hset : (w.frame f).slots.set i v with a | slots
  · exact refl_of _ w
  · refine ⟨rfl, rfl, fun _ => rfl, fun g j hj => ?_⟩
    by_cases hg : g = f
    · subst hg
      have hne : j ≠ i := fun h => hj rfl (h ▸ hi)
      by_cases hf : w.HasFrame g
      · simp only [frame_modifyFrame_self hf]
        rw [Slots.get_set hset, if_neg hne]
      · simp only [modifyFrame_of_not_hasFrame hf]
    · simp only [frame_modifyFrame_of_ne hg]

/-- Whatever is stored as an element, only collections change. -/
theorem storeElement_spares (h : .element ∈ places) (c : Value) (index : List Value)
    (v : Value) : Keeps (Spares f places) (Exec.storeElement c index v) := by
  have hset (h' : Heap) : Keeps (Spares f places) (Exec.setHeap h') := fun w =>
    ⟨rfl, rfl, fun hp => absurd h hp, fun _ _ _ => rfl⟩
  unfold Exec.storeElement
  split
  · exact .bind .heap fun _ => .bind (.ofFault _) fun _ => hset _
  · exact .bind (.vectorPosition _) fun _ => .bind .heap fun _ => .bind (.ofAbort _) fun _ =>
      hset _
  · exact .bind (.typeOf _) fun _ => .mismatch _

theorem place_spares {p : Place} (hp : p ∈ places) : p.Has (Keeps (Spares f places)) f := by
  cases p with
  | slot i => exact writeSlot_spares hp
  | element => exact storeElement_spares hp

end World

namespace Stmt

variable {s : Stmt}

/-- Slots of the loop variables and case bindings in a statement. -/
def bound (s : Stmt) : List Nat := s.preorder.flatMap fun t => t.binds.map Ident.slot

/-- The timeouts of the `when`s in a statement. -/
def timeouts (s : Stmt) : List Expr := s.preorder.filterMap timeout?

/-- What the timeouts in a statement may write. -/
def timeoutWrites (s : Stmt) : List Place := s.timeouts.flatMap Expr.writes

theorem binds_spares (s : Stmt) (f : FrameRef) :
    s.Binds (World.Spares f (s.bound.map .slot ++ s.timeoutWrites)) f := by
  intro t ht
  refine ⟨fun id hid v => World.writeSlot_spares ?_ v, fun e he => Expr.eval_keeps e ?_⟩
  · refine List.mem_append_left _ (List.mem_map_of_mem ?_)
    exact List.mem_flatMap.mpr ⟨t, ht, List.mem_map_of_mem hid⟩
  · intro p hp
    refine World.place_spares (List.mem_append_right _ ?_)
    exact List.mem_flatMap.mpr ⟨e, List.mem_filterMap.mpr ⟨t, ht, he⟩, hp⟩

theorem exec_spares (hpure : s.isPure) (fuel : Nat) (f : FrameRef) (w : World) :
    World.Spares f (s.bound.map .slot ++ s.timeoutWrites) w ((s.exec fuel f).leaves w) :=
  exec_of_isPure World.overlooks_spares fuel hpure (s.binds_spares f) w

theorem timeoutWrites_of_isPure (h : ∀ e ∈ s.timeouts, e.isPure) : s.timeoutWrites = [] :=
  List.flatMap_eq_nil_iff.mpr fun e he => e.writes_of_isPure (h e he)

end Stmt

/-! ## What a timeout does -/

namespace Stmt

open World (SameData)

/-- Finding the deadline does nothing but evaluate the timeout. -/
theorem sameData_deadline (e : Expr) (f : FrameRef) (w : World) :
    SameData ((e.eval f).leaves w) ((deadline f (some e)).leaves w) := by
  have hmap : SameData ((e.eval f).leaves w) ((some <$> e.eval f).leaves w) := by
    rw [map_eq_pure_bind]
    exact Keeps.after_bind (e.eval f) (fun _ => .pure _) w
  have hcatch : SameData ((some <$> e.eval f).leaves w)
      ((Exec.onFault (some <$> e.eval f) fun _ => pure none).leaves w) :=
    Keeps.after_onFault _ (fun _ => .pure _) w
  refine trans_of SameData (trans_of SameData hmap hcatch) (Keeps.after_bind _ (fun v => ?_) w)
  split
  · refine .bind .get fun w => ?_
    split
    · exact .pure _
    · exact .abort _
  · exact .pure _
  · exact .pure _

/-- A `when` does to collections and slots what its timeout does. -/
theorem sameData_exec_when (i : StmtInfo) (test : Expr) (body : Stmt) (e : Expr)
    (timeoutBody : Option Stmt) (isReturn : Bool) (fuel : Nat) (f : FrameRef) (w : World) :
    SameData ((e.eval f).leaves w)
      ((exec fuel f (.when i test body (some e) timeoutBody isReturn)).leaves w) := by
  -- the timeout does not see that the statement has entered the journal
  let w₁ : World := { w with journal := .start i.id w.now :: w.journal }
  have hvisit : SameData ((e.eval f).leaves w) ((e.eval f).leaves w₁) := by
    obtain ⟨r, h, s, -, heval⟩ := e.eval_local f w
    have hw := heval w (.refl f w)
    have hw₁ := heval w₁ ⟨rfl, rfl, .rfl⟩
    unfold Exec.leaves
    rw [hw, hw₁]
    exact ⟨rfl, fun _ => rfl⟩
  have hinstall : SameData ((deadline f (some e)).leaves w₁)
      ((exec fuel f (.when i test body (some e) timeoutBody isReturn)).leaves w) := by
    rw [exec_eq, act]
    refine trans_of SameData (Keeps.after_bind (deadline f (some e)) (fun d => ?_) w₁)
      (Keeps.after_bind _ (fun _ => .pure _) w₁)
    exact fun w => SameData.of_install w _ d isReturn i.span
  exact trans_of SameData (trans_of SameData hvisit (sameData_deadline e f w₁)) hinstall

/-- Executing a pure statement prints and raises nothing, and changes at most
the variables of loops and cases in it and what the timeouts in it write. If
these are pure as well, it leaves all else alone. But no timeout is looked at
for purity, and whatever it does to collections and slots happens. -/
theorem pure_up_to_timeouts {s : Stmt} (hpure : s.isPure) (fuel : Nat) (f : FrameRef)
    (w : World) :
    World.Spares f (s.bound.map .slot ++ s.timeoutWrites) w ((s.exec fuel f).leaves w) ∧
      ((∀ e ∈ s.timeouts, e.isPure) →
        World.Spares f (s.bound.map .slot) w ((s.exec fuel f).leaves w)) ∧
      ∀ i test body e timeoutBody isReturn,
        s = .when i test body (some e) timeoutBody isReturn →
          SameData ((e.eval f).leaves w) ((s.exec fuel f).leaves w) := by
  have hspares := exec_spares hpure fuel f w
  refine ⟨hspares, fun htimeouts => ?_, ?_⟩
  · simpa [timeoutWrites_of_isPure htimeouts] using hspares
  · rintro i test body e timeoutBody isReturn rfl
    exact sameData_exec_when i test body e timeoutBody isReturn fuel f w

end Stmt

namespace Script

/-- A loop over the bytes of a string that waits in every round. -/
def patientLoop : Doc.Unit where
  name := "patient-loop"
  kind := .toplevel
  locals := [⟨"x", .interval, none, .unknown⟩]
  body := .for [⟨"c", none, .unknown⟩] none (.const (.str "ab")) (.when (.const (.bool false)) .null
      (some (.mk (.const (.interval ⟨0x4014000000000000⟩)) none)) false)

/-- Its timeouts are pure; it binds its variable and registers two triggers. -/
theorem pure_up_to_timeouts_patientLoop :
    ∃ w : World, (build patientLoop 0).body.isPure ∧ (build patientLoop 0).body.bound = [1] ∧
      World.Spares ⟨0⟩ [.slot 1] w (((build patientLoop 0).run 1 ⟨0⟩).leaves w) ∧
      (((build patientLoop 0).run 1 ⟨0⟩).leaves w).triggers.size = 2 := by
  have hpure : (build patientLoop 0).body.isPure := by decide +kernel
  have hbound : (build patientLoop 0).body.bound = [1] := by decide +kernel
  have htimeouts : ∀ e ∈ (build patientLoop 0).body.timeouts, e.isPure := by decide +kernel
  obtain ⟨-, hspares, -⟩ := Stmt.pure_up_to_timeouts hpure 1 ⟨0⟩
    ((World.start default default).addFrame 2 none).2
  have hrun := hspares htimeouts
  rw [hbound] at hrun
  exact ⟨_, hpure, hbound, hrun, by decide +kernel⟩

/-- A `when` whose timeout is an assignment. -/
def assigningTimeout : Doc.Unit where
  name := "assigning-timeout"
  kind := .toplevel
  locals := [⟨"x", .interval, none, .unknown⟩]
  body := .when (.const (.bool true)) .null
    (some (.mk (.assign (.name "x") (.const (.interval ⟨0x4014000000000000⟩))) none)) false

/-- It loads, it is pure and binds nothing, and running it sets the local. -/
theorem impure_by_timeout :
    ∃ script, Script.load assigningTimeout 0 = .ok script ∧ script.body.isPure ∧
      script.body.bound = [] ∧
      ∃ w : World, (w.frame ⟨0⟩).slots.get 0 = none ∧
        (((script.run 1 ⟨0⟩).leaves w).frame ⟨0⟩).slots.get 0 ≠ none := by
  have hload : (Script.build assigningTimeout 0).hasErrors = false := by decide +kernel
  exact ⟨.build assigningTimeout 0, load_eq_ok_iff.mpr ⟨rfl, hload⟩, by decide +kernel,
    by decide +kernel, ((World.start default default).addFrame 1 none).2, by decide +kernel,
    by decide +kernel⟩

end Script

end Vigil
