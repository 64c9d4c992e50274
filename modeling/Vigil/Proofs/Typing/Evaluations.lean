import Vigil.Proofs.Exec.Calls
import Vigil.Proofs.Typing.Exec

/-!
# Vigil.Proofs.Typing.Evaluations — every evaluation is typed

A task fits a world when all it is given is typed under the layout of its
frame. A call made by a fitting task in a conforming world is again a fitting
task in a conforming world (`Task.Calls.fits`), so every evaluation that takes
place while an operation is performed is one of a typed expression, and its
value has the static type (`HostOp.Evaluates.typed`).
-/

namespace Vigil

variable {Γ : FrameRef → Layout} {fuel : Nat} {w w' : World} {op : HostOp}

/-- The operation runs typed bodies only, and binds no slot from outside. -/
def HostOp.Typed (Γ : FrameRef → Layout) : HostOp → Prop
  | .run s f => s.body.Typed (Γ f)
  | .bind .. => False
  | _ => True

theorem World.evolves_settled {t : TriggerRef} {state : TriggerState} {body : Stmt}
    (hw : w.Conforms Γ) : w.Evolves Γ (w.settled t state body) := by
  have hleave := (World.Clerical.leave t state).evolves hw
  exact hleave.trans (hleave.conforms.evolves rfl (fun _ => rfl) fun _ _ h => h)

namespace Task

/-- All that a task is given is typed. -/
def Fits (Γ : FrameRef → Layout) (w : World) : Task → Prop
  | .eval f e | .place f e => e.Typed (Γ f)
  | .evalList f es => Expr.TypedList (Γ f) es
  | .exec f s | .act f s => s.Typed (Γ f)
  | .execList f ss | .execEach f ss => Stmt.TypedList (Γ f) ss
  | .execCases f v binding _ cases =>
    Stmt.TypedCases (Γ f) cases ∧
      ∀ id ∈ binding, id ∈ (Γ f).idents ∧ w.heap.HasType v id.ty
  | .whileRounds f test body => test.Typed (Γ f) ∧ body.Typed (Γ f)
  | .tableRounds f r vars valueVar body _ =>
    body.Typed (Γ f) ∧ r.idx < w.heap.tables.size ∧
      (Γ f).Loop vars valueVar (w.heap.table r).ty
  | .vectorRounds f var body _ =>
    body.Typed (Γ f) ∧ var ∈ (Γ f).idents ∧ var.ty.isIntegral = true
  | .stringRounds f var body _ => body.Typed (Γ f) ∧ (Γ f).Has var .string
  | .check _ | .timeOut _ | .checkEach _ | .checkBatches _ | .timeOutEach _ => True
  | .perform op => op.Typed Γ

/-- A call made by a fitting task fits the world it is made in. -/
theorem Calls.fits {a b : Task} (h : Calls fuel w a w' b) (hw : w.Conforms Γ)
    (ha : a.Fits Γ w) : w'.Conforms Γ ∧ b.Fits Γ w' := by
  -- where a call follows an evaluation, the world is the one that evaluation left
  have after {f : FrameRef} {e : Expr} {v : Value} {w' : World} (he : e.Typed (Γ f))
      (hv : (e.eval f).runFrom w = (.ok v, w')) : w.Evolves Γ w' ∧ w'.heap.HasType v e.ty :=
    (Expr.eval_safe e hw he).of_ok hv
  have ran {w w' : World} {f : FrameRef} {s : Stmt} {out : Outcome} (hw : w.Conforms Γ)
      (hs : s.Typed (Γ f)) (hout : (s.exec fuel f).runFrom w = (.ok out, w')) : w.Evolves Γ w' :=
    ((Stmt.exec_safe s hw hs).of_ok hout).1
  cases h with
  | operand | sized | left | container | head | test | iterable | selector | add | whileTest =>
    exact ⟨hw, ha.1⟩
  | value | collection => exact ⟨hw, ha.2.1⟩
  | element | list | bodyList | expr | print | event | «while» | delete | «return» | absentKey
  | emptySlot | run => exact ⟨hw, ha⟩
  | right hl => exact ⟨(after ha.1 hl).1.conforms, ha.2.1⟩
  | target hv => exact ⟨(after ha.2.1 hv).1.conforms, ha.1⟩
  | index ht => exact ⟨(after ha.1 ht).1.conforms, ha.2.1⟩
  | member ht => exact ⟨(after ha.2.1 ht).1.conforms, ha.1⟩
  | tail he | whileBody he => exact ⟨(after ha.1 he).1.conforms, ha.2⟩
  | act => exact ⟨(Exec.visit_safe (Q := fun _ _ => True) hw trivial).evolves.conforms, ha⟩
  | branch ht hs =>
    refine ⟨(Exec.setNext_safe (after ha.1 ht).1.conforms).evolves.conforms, ?_⟩
    rcases hs with rfl | rfl
    · exact ha.2.1
    · exact ha.2.2
  | @overTable _ _ _ _ _ _ _ r ht =>
    obtain ⟨hev, hv⟩ := after ha.1 ht
    have henter := (Exec.enter_safe (r := r) hev.conforms).evolves
    have hloop := Stmt.loop_typeOf hv ha.2.1
    refine ⟨henter.conforms, ha.2.2, Nat.lt_of_lt_of_le hv.has henter.grows.tables, ?_⟩
    rwa [henter.grows.table_ty _ hv.has]
  | overVector ht =>
    obtain ⟨hev, hv⟩ := after ha.1 ht
    obtain ⟨var, hvar, hmem, hint⟩ := Stmt.loop_typeOf hv ha.2.1
    cases hvar
    exact ⟨hev.conforms, ha.2.2, hmem, hint⟩
  | overString ht =>
    obtain ⟨hev, hv⟩ := after ha.1 ht
    obtain ⟨var, hvar, hhas⟩ := Stmt.loop_typeOf hv ha.2.1
    cases hvar
    exact ⟨hev.conforms, ha.2.2, hhas⟩
  | arm he hfind =>
    obtain ⟨hev, hv⟩ := after ha.1 he
    obtain ⟨arm, binding, hfind', hbinding⟩ := Stmt.find_safe hev.conforms ha.2.1 hv
    cases hfind'.symm.trans hfind
    exact ⟨hev.conforms, ha.2.2, hbinding⟩
  | timeout => exact ⟨hw, ha.2.2.1 _ rfl⟩
  | first | handler => exact ⟨(Exec.setNext_safe hw).evolves.conforms, ha.1⟩
  | next hs => exact ⟨(ran (Exec.setNext_safe hw).evolves.conforms ha.1 hs).conforms, ha.2⟩
  | nextHandler =>
    refine ⟨(Stmt.exec_safe _ ?_ ha.1).evolves.conforms, ha.2⟩
    exact (Exec.setNext_safe hw).evolves.conforms
  | skip => exact ⟨hw, ha.1.2, ha.2⟩
  | case hbind => exact ⟨((Stmt.bindCase_safe hw ha.2).of_ok hbind).1.conforms, ha.1.1⟩
  | nextCase hbind hout =>
    -- the value outlives the body: it still has its type when the next arm binds it
    have hbound := ((Stmt.bindCase_safe hw ha.2).of_ok hbind).1
    have hrun := ran hbound.conforms ha.1.1 hout
    refine ⟨hrun.conforms, ha.1.2, fun id hid => ⟨(ha.2 id hid).1, ?_⟩⟩
    exact (ha.2 id hid).2.mono (hbound.grows.trans hrun.grows)
  | whileNext ht hout => exact ⟨(ran (after ha.1 ht).1.conforms ha.2 hout).conforms, ha⟩
  | tableBody hv hindex hbind =>
    exact ⟨((Stmt.bindEntry_safe hw ha.2.2 hv hindex).of_ok hbind).1.conforms, ha.1⟩
  | tableNext hv hindex hbind hout =>
    have hbound := ((Stmt.bindEntry_safe hw ha.2.2 hv hindex).of_ok hbind).1
    have hrun := ran hbound.conforms ha.1 hout
    have hg := hbound.grows.trans hrun.grows
    refine ⟨hrun.conforms, ha.1, Nat.lt_of_lt_of_le ha.2.1 hg.tables, ?_⟩
    rw [hg.table_ty _ ha.2.1]
    exact ha.2.2
  | vectorBody hbind =>
    exact ⟨((Stmt.writeCount_safe hw ha.2.1 ha.2.2).of_ok hbind).1.conforms, ha.1⟩
  | vectorNext hbind hout =>
    have hbound := ((Stmt.writeCount_safe hw ha.2.1 ha.2.2).of_ok hbind).1
    exact ⟨(ran hbound.conforms ha.1 hout).conforms, ha⟩
  | stringBody hbind => exact ⟨((Stmt.writeByte_safe hw ha.2).of_ok hbind).1.conforms, ha.1⟩
  | stringNext hbind hout =>
    have hbound := ((Stmt.writeByte_safe hw ha.2).of_ok hbind).1
    exact ⟨(ran hbound.conforms ha.1 hout).conforms, ha⟩
  | cond hc => exact ⟨hw, (hw.captured _ _ hc).cond⟩
  | fire hc hheld =>
    have hholds := ((World.scheduled_sound.holds hw hc hw).of_ok hheld).1
    refine ⟨(World.evolves_settled ?_).conforms, (hw.captured _ _ hc).body⟩
    exact (Exec.note_safe hholds.conforms).evolves.conforms
  | giveUp hc hs =>
    have hbody : Captured.bodyFor _ .timedOut = some _ := hs
    exact ⟨(World.evolves_settled hw).conforms, (hw.captured _ _ hc).bodyFor hbody⟩
  | checkNext => exact ⟨(World.scheduled_sound.checkEach _ hw).evolves.conforms, trivial⟩
  | @nextBatch _ ts hts =>
    have hchecked := ((World.scheduled_sound.checkEach ts hw).of_ok hts).1.conforms
    have hended := ((World.Clerical.endBatch ts).evolves hchecked).conforms
    exact ⟨(World.Clerical.takeFresh.evolves hended).conforms, trivial⟩
  | checkFirst | batch | timeOutFirst => exact ⟨hw, trivial⟩
  | timeOutNext ht =>
    exact ⟨((World.scheduled_sound.timeOut _ hw).of_ok ht).1.conforms, trivial⟩
  | checkAll => exact ⟨(World.Clerical.takeAll.evolves hw).conforms, trivial⟩
  | expire => exact ⟨((World.Clerical.takeExpired _).evolves hw).conforms, trivial⟩
  | advance => exact ⟨((World.Clerical.setNow _).evolves hw).conforms, trivial⟩
  | @expireAfter _ time hchecked =>
    have hnow := ((World.Clerical.setNow time).evolves hw).conforms
    exact ⟨((World.scheduled_sound.checkAll hnow).of_ok hchecked).1.conforms, trivial⟩

end Task

/-- Every evaluation that takes place is one of a typed expression in a
conforming world. -/
theorem HostOp.Evaluates.typed {f : FrameRef} {e : Expr} (h : op.Evaluates fuel w f e w')
    (hw : w.Conforms Γ) (hop : op.Typed Γ) :
    w'.Conforms Γ ∧ e.Typed (Γ f) := by
  exact h.induct (J := fun w a => w.Conforms Γ ∧ a.Fits Γ w) ⟨hw, hop⟩
    fun hcall hfits => hcall.fits hfits.1 hfits.2

/-! ## Operations -/

/-- A new frame binds nothing. -/
theorem World.evolves_addFrame (size : Nat) (session : Option SessionId) (hw : w.Conforms Γ) :
    w.Evolves Γ (w.addFrame size session).2 := by
  refine ⟨⟨hw.heap, fun f id hid v hv => ?_, hw.captured⟩, .refl _⟩
  simp only [World.frame, World.addFrame, Array.getElem?_push] at hv
  split at hv
  · simp only [Option.getD_some, Slots.get, Array.getElem?_replicate] at hv
    split at hv <;> cases hv
  · exact hw.slots f id hid v hv

/-- A typed operation keeps the world conforming and breaks no invariant. -/
theorem HostOp.perform_sound (hop : op.Typed Γ) : Exec.Sound Γ (op.perform fuel) := by
  refine World.scheduled_sound.perform op ?_ ?_ ?_
  · exact fun size session _ _ hw => .of_modify (World.evolves_addFrame size session hw) trivial
  · rintro f slot v rfl
    exact hop.elim
  · rintro s f rfl w hw
    exact (Stmt.exec_safe s.body hw hop).mono fun _ _ _ _ => trivial

end Vigil
