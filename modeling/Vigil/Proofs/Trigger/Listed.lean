import Vigil.Proofs.Exec.Calls
import Vigil.Proofs.Trigger.Parallel

/-!
# Vigil.Proofs.Trigger.Listed — the listed evaluations are all

What an operation does to an engine is done by steps of the engine itself
(`Exec.Own`) and by evaluations, and these reach beyond the slots of their frame
only where an assignment stores an element. A preorder that the former keep, and
the latter if the assignment is listed for the operation (`HostOp.Evaluates`),
relates the worlds before and after (`HostOp.Follows.perform`). If an evaluation
were left out of the list, what it stores could break such a relation.
-/

namespace Vigil

open Exec (Keeps)

namespace Exec

/-- What the engine does itself when it runs statements and triggers. It writes
slots as assignments do. -/
inductive Own : {α : Type} → Exec α → Prop
  | visit (i) : Own (visit i)
  | note (e) : Own (note e)
  | next (f s) : Own (setNext f s)
  | write (f i v) : Own (writeSlot f i v)
  | enter (r) : Own (modifyTable r Table.enter)
  | leave (r) : Own (modifyTable r Table.leave)
  | print (vals) : Own (Stmt.printLine vals)
  | raise (name args) : Own (Stmt.raise name args)
  | add (c index) : Own (addElement c index)
  | delete (c index) : Own (deleteElement c index)
  | fresh (f ids) : Own (Stmt.giveFresh f ids)
  | install (c deadline isReturn span) : Own (modify (World.install c deadline isReturn span))
  | change {g} : World.Clerical g → Own (modify g)
  | frame (size session) : Own (modify fun w => (w.addFrame size session).2)

/-- Run from `v`, the computation leaves a related world. -/
def Leads {α : Type} (R : World → World → Prop) (v : World) (x : Exec α) : Prop :=
  R v (x.leaves v)

namespace Leads

variable {α β : Type} {R : World → World → Prop} {v : World} {x : Exec α} {k : α → Exec β}

theorem ite {p : Prop} [Decidable p] {y : Exec α} (hx : Leads R v x) (hy : Leads R v y) :
    Leads R v (if p then x else y) := by
  split
  · exact hx
  · exact hy

theorem get {k : World → Exec β} (hk : Leads R v (k v)) : Leads R v (get >>= k) := hk

theorem heap {k : Heap → Exec β} (hk : Leads R v (k v.heap)) : Leads R v (heap >>= k) := hk

variable [IsPreorder World R]

theorem ofAbort {r : Except Abort α} (hk : ∀ a, r = .ok a → Leads R v (k a)) :
    Leads R v (ofAbort r >>= k) := by
  cases r with
  | error a => exact refl_of R v
  | ok a => exact hk a rfl

/-- What comes next runs from where the first part succeeded. -/
theorem bind (hx : Leads R v x) (hk : ∀ a v', x.runFrom v = (.ok a, v') → Leads R v' (k a)) :
    Leads R v (x >>= k) := by
  unfold Leads leaves at *
  rw [runFrom_bind]
  rcases hrun : x.runFrom v with ⟨s | a, v'⟩ <;> rw [hrun] at hx
  · exact hx
  · exact trans_of R hx (hk a v' hrun)

theorem step (hx : Leads R v x) (hk : ∀ a, Leads R (x.leaves v) (k a)) : Leads R v (x >>= k) := by
  refine .bind hx fun a v' hrun => ?_
  obtain rfl : x.leaves v = v' := congrArg Prod.snd hrun
  exact hk a

theorem andThen (hx : Leads R v x) (hk : ∀ a, Keeps R (k a)) : Leads R v (x >>= k) :=
  .step hx fun a => hk a _

theorem onFault {recover : Fault → Exec α} (hx : Leads R v x) (hr : ∀ e, Keeps R (recover e)) :
    Leads R v (onFault x recover) := trans_of R hx (Keeps.after_onFault x hr v)

end Leads

end Exec

namespace HostOp

open Exec (Leads)

variable {fuel : Nat} {op : HostOp} {w v v' : World} {R : World → World → Prop} {f : FrameRef}
  {s body : Stmt} {ss : List Stmt} {val : Value} {last : Outcome} {vars : List Ident}
  {var : Ident} {valueVar : Option Ident} {t : TriggerRef} {ts : List TriggerRef}

theorem Involves.calls {a b : Task} (h : op.Involves fuel w a v) (hb : Task.Calls fuel v a v' b) :
    op.Involves fuel w b v' := Relation.ReflTransGen.tail h hb

/-- The engine's own steps keep the relation, and so does what the assignments
store that are listed for the operation. -/
structure Follows (fuel : Nat) (op : HostOp) (w : World) (R : World → World → Prop) : Prop where
  own : ∀ {α : Type} {x : Exec α}, Exec.Own x → Keeps R x
  store : ∀ {f t is j e i v v₁ v₂ v₃ a c index},
    op.Evaluates fuel w f (.assign (.index t is j) e i) v → (e.eval f).runFrom v = (.ok a, v₁) →
    (t.eval f).runFrom v₁ = (.ok c, v₂) → (Expr.evalList f is).runFrom v₂ = (.ok index, v₃) →
    Leads R v₃ (Exec.storeElement c index (a.coerce (Expr.index t is j).ty))

/-- Where the operation executes the statement, the relation is kept. -/
def Led (fuel : Nat) (op : HostOp) (w : World) (R : World → World → Prop) (f : FrameRef)
    (s : Stmt) : Prop := ∀ v, op.Executes fuel w f s v → Leads R v (s.exec fuel f)

namespace Follows

variable [IsPreorder World R]

/-! ## Expressions -/

mutual

theorem eval (h : op.Follows fuel w R) : (e : Expr) → {v : World} →
    op.Evaluates fuel w f e v → Leads R v (e.eval f)
  | .const .., v, _ | .error _, v, _ => by
    rw [Expr.eval]
    exact refl_of R v
  | .name .., v, _ => by
    rw [Expr.eval]
    split
    · exact Keeps.pure _ v
    · exact Keeps.readSlot _ _ _ v
  | .unary _ e _, _, hv => by
    rw [Expr.eval]
    exact .andThen (eval h e (hv.calls .operand)) fun _ => .bind .heap fun _ => .ofStop _
  | .binary op l r _, v, hv => by
    have hl := eval h l (hv.calls .left)
    have hr {a v'} (ha : (l.eval f).runFrom v = (.ok a, v')) := eval h r (hv.calls (.right ha))
    cases op
    case and =>
      rw [Expr.eval]
      exact .bind hl fun _ v' ha => .ite (Keeps.pure _ v') (.andThen (hr ha) fun _ => .pure _)
    case or =>
      rw [Expr.eval]
      exact .bind hl fun _ v' ha => .ite (.andThen (hr ha) fun _ => .pure _) (Keeps.pure _ v')
    all_goals
      rw [Expr.eval]
      · exact .bind hl fun _ _ ha => .andThen (hr ha) fun _ => .bind .heap fun _ => .ofStop _
      all_goals simp
  | .assign t e i, _, hv => by
    rw [Expr.eval]
    refine .bind (eval h e (hv.calls .value)) fun a v' ha => .andThen ?_ fun _ => .pure _
    have ht := hv.calls (.target ha)
    cases t with
    | name id i =>
      rw [Expr.store]
      exact h.own (.write ..) v'
    | index t is j =>
      rw [Expr.store]
      refine .bind (eval h t (ht.calls .container)) fun c _ hc => ?_
      exact .bind (evalList h is (ht.calls (.index hc))) fun _ _ his => h.store hv ha hc his
    | _ => exact refl_of R v'
  | .index t is _, _, hv => by
    have ht := hv.calls .element
    rw [Expr.eval]
    refine .bind (eval h t (ht.calls .container)) fun _ _ hc => ?_
    exact .andThen (evalList h is (ht.calls (.index hc))) fun _ => .element _ _
  | .member es t _, _, hv => by
    rw [Expr.eval]
    refine .bind (eval h t (hv.calls .collection)) fun _ _ hc => ?_
    refine .andThen (evalList h es (hv.calls (.member hc))) fun _ => ?_
    exact .bind (.isMember _ _) fun _ => .pure _
  | .size e _, _, hv => by
    rw [Expr.eval]
    exact .andThen (eval h e (hv.calls .sized)) fun _ => .sizeOf _

theorem evalList (h : op.Follows fuel w R) : (es : List Expr) → {v : World} →
    op.Involves fuel w (.evalList f es) v → Leads R v (Expr.evalList f es)
  | [], v, _ => by
    rw [Expr.evalList]
    exact Keeps.pure _ v
  | e :: es, _, hv => by
    rw [Expr.evalList]
    refine .bind (eval h e (hv.calls .head)) fun _ _ he => ?_
    exact .andThen (evalList h es (hv.calls (.tail he))) fun _ => .pure _

end

variable (h : op.Follows fuel w R)
include h

/-- Something is done with the element that a target names. -/
theorem place {t : Expr} {is : List Expr} {i : ExprInfo} {k : Value → List Value → Exec Unit}
    (hv : op.Involves fuel w (.place f (.index t is i)) v) (hk : ∀ c index, Keeps R (k c index)) :
    Leads R v (do k (← t.eval f) (← Expr.evalList f is)) :=
  .bind (h.eval _ (hv.calls .container)) fun c _ hc =>
    .andThen (h.evalList _ (hv.calls (.index hc))) fun index => hk c index

theorem deadline {e : Expr} (hv : op.Evaluates fuel w f e v) :
    Leads R v (Stmt.deadline f (some e)) := by
  rw [Stmt.deadline, map_eq_pure_bind]
  refine .andThen (.onFault (.andThen (h.eval _ hv) fun _ => .pure _) fun _ => .pure _) fun a => ?_
  split
  · refine .bind .get fun w => ?_
    split
    · exact .pure _
    · exact .abort _
  · exact .pure _
  · exact .pure _

/-! ## Sequences and loops -/

theorem execList (hss : ∀ s ∈ ss, Led fuel op w R f s)
    (hv : op.Involves fuel w (.execList f ss) v) : Leads R v (Stmt.execList fuel f ss) := by
  induction ss generalizing v with
  | nil =>
    rw [Stmt.execList]
    exact Keeps.pure _ v
  | cons s rest ih =>
    rw [List.forall_mem_cons] at hss
    rw [Stmt.execList]
    refine .step (h.own (.next f s.id) v) fun _ => ?_
    refine .bind (hss.1 _ (hv.calls .first)) fun out v' hout => ?_
    refine .step (Keeps.hasDelayed f v') fun _ => ?_
    exact .ite (Keeps.pure _ v') (ih hss.2 (hv.calls (.next hout)))

theorem execEach (hss : ∀ s ∈ ss, Led fuel op w R f s)
    (hv : op.Involves fuel w (.execEach f ss) v) : Leads R v (Stmt.execEach fuel f ss) := by
  induction ss generalizing v with
  | nil =>
    rw [Stmt.execEach]
    exact Keeps.pure _ v
  | cons s rest ih =>
    rw [List.forall_mem_cons] at hss
    rw [Stmt.execEach]
    refine .step (h.own (.next f s.id) v) fun _ => ?_
    refine .step (.onFault (hss.1 _ (hv.calls .handler)) fun _ => .pure _) fun _ => ?_
    -- a body that failed leaves the world it failed in
    have hleaves := Exec.leaves_onFault (s.exec fuel f) (fun _ => pure .next)
      ((Exec.setNext f s.id).leaves v)
    rw [hleaves.elim id fun h => h.choose_spec]
    exact ih hss.2 (hv.calls .nextHandler)

theorem execCases {binding : Option Ident} {cases : List Case} {skip : Nat}
    (hcases : ∀ c ∈ cases, Led fuel op w R f c.body)
    (hv : op.Involves fuel w (.execCases f val binding skip cases) v) :
    Leads R v (Stmt.execCases fuel f (Stmt.bindCase f val binding) skip cases last) := by
  induction cases generalizing skip last v with
  | nil =>
    rw [Stmt.execCases]
    exact Keeps.pure _ v
  | cons c rest ih =>
    rw [List.forall_mem_cons] at hcases
    rcases c with ⟨labels, body, span⟩
    cases skip with
    | succ skip =>
      rw [Stmt.execCases]
      exact ih hcases.2 (hv.calls .skip)
    | zero =>
      rw [Stmt.execCases]
      refine .bind (Stmt.bindCase_keeps (fun _ _ _ => h.own (.write ..)) v) fun _ v₁ hb => ?_
      refine .bind (hcases.1 _ (hv.calls (.case hb))) fun out v₂ hout => ?_
      exact .ite (Keeps.pure _ v₂) (ih hcases.2 (hv.calls (.nextCase hb hout)))

section Loops

variable (hbody : Led fuel op w R f body)
include hbody

theorem whileRounds {test : Expr} {limit : Option Nat} {budget rounds : Nat}
    (hv : op.Involves fuel w (.whileRounds f test body) v) :
    Leads R v (Stmt.whileRounds limit (test.eval f) (body.exec fuel f) budget rounds last) := by
  induction budget generalizing rounds last v with
  | zero => exact Keeps.throw _ v
  | succ budget ih =>
    unfold Stmt.whileRounds
    refine .bind (h.eval _ (hv.calls .whileTest)) fun _ v₁ ha => .ite (Keeps.pure _ v₁) ?_
    have hround : Leads R v₁ (do
        let out ← body.exec fuel f
        if out.flow.stops then pure out
        else Stmt.whileRounds limit (test.eval f) (body.exec fuel f) budget (rounds + 1) out) :=
      .bind (hbody _ (hv.calls (.whileBody ha))) fun out v₂ hout =>
        .ite (Keeps.pure _ v₂) (ih (hv.calls (.whileNext ha hout)))
    cases limit with
    | none => exact hround
    | some max => exact .ite (Keeps.fault _ v₁) hround

theorem tableRounds {r : TableRef} {keys : List Key}
    (hv : op.Involves fuel w (.tableRounds f r vars valueVar body keys) v) :
    Leads R v
      (Stmt.tableRounds r (Stmt.bindEntry f vars valueVar) (body.exec fuel f) keys last) := by
  have hleave := h.own (.leave r)
  induction keys generalizing last v with
  | nil => exact .andThen (hleave v) fun _ => .pure _
  | cons k rest ih =>
    refine .heap ?_
    dsimp only
    cases hfind : Table.find? k (v.heap.table r).entries with
    | none => exact ih (hv.calls .absentKey)
    | some val =>
      refine .ofAbort fun index hindex => ?_
      refine .bind (Stmt.bindEntry_keeps (fun _ _ _ => h.own (.write ..)) _ _ v) fun _ v₁ hb => ?_
      have hround := hbody v₁ (hv.calls (.tableBody hfind hindex hb))
      refine .bind (.onFault hround fun e => .bind hleave fun _ => .fault e) fun out v₂ hout => ?_
      rw [Exec.runFrom_onFault] at hout
      split at hout
      · cases hout
      · refine .ite (.andThen (hleave v₂) fun _ => .pure _) ?_
        exact ih (hv.calls (.tableNext hfind hindex hb hout))

theorem vectorRounds {r : VecRef} {budget i : Nat}
    (hv : op.Involves fuel w (.vectorRounds f var body i) v) :
    Leads R v (Stmt.vectorRounds r (fun v => Exec.writeSlot f var.slot (v.coerce var.ty))
      (body.exec fuel f) budget i last) := by
  induction budget generalizing i last v with
  | zero => exact Keeps.throw _ v
  | succ budget ih =>
    refine .heap (.ite (Keeps.pure _ v) (.ite (ih (hv.calls .emptySlot)) ?_))
    refine .bind (h.own (.write ..) v) fun _ v₁ hb => ?_
    refine .bind (hbody _ (hv.calls (.vectorBody hb))) fun out v₂ hout => ?_
    exact .ite (Keeps.pure _ v₂) (ih (hv.calls (.vectorNext hb hout)))

theorem stringRounds {bytes : Bytes} (hv : op.Involves fuel w (.stringRounds f var body bytes) v) :
    Leads R v (Stmt.stringRounds (Exec.writeSlot f var.slot) (body.exec fuel f) bytes last) := by
  induction bytes generalizing last v with
  | nil => exact Keeps.pure _ v
  | cons b rest ih =>
    refine .bind (h.own (.write ..) v) fun _ v₁ hb => ?_
    refine .bind (hbody _ (hv.calls (.stringBody hb))) fun out v₂ hout => ?_
    exact .ite (Keeps.pure _ v₂) (ih (hv.calls (.stringNext hb hout)))

theorem forRounds {i : StmtInfo} {target : Expr}
    (hv : op.Involves fuel w (.act f (.for i vars valueVar target body)) v)
    (hval : (target.eval f).runFrom v = (.ok val, v')) :
    Leads R v' (Stmt.forRounds fuel f vars valueVar val (body.exec fuel f)) := by
  cases val with
  | table r =>
    refine .heap (.step (h.own (.enter r) v') fun _ => ?_)
    exact h.tableRounds hbody (hv.calls (.overTable hval))
  | vector r =>
    rcases vars with _ | ⟨var, _ | _⟩
    · exact refl_of R v'
    · exact h.vectorRounds hbody (hv.calls (.overVector hval))
    · exact refl_of R v'
  | str s =>
    rcases vars with _ | ⟨var, _ | _⟩
    · exact refl_of R v'
    · exact h.stringRounds hbody (hv.calls (.overString hval))
    · exact refl_of R v'
  | _ => exact refl_of R v'

end Loops

/-! ## Statements -/

theorem acts (hparts : ∀ t ∈ s.parts, Led fuel op w R f t)
    (hv : op.Involves fuel w (.act f s) v) : Leads R v (s.act fuel f) := by
  cases s with
  | list i ss => exact h.execList hparts (hv.calls .list)
  | bodyList i ss => exact .andThen (h.execEach hparts (hv.calls .bodyList)) fun _ => .pure _
  | cond i test thenBody elseBody =>
    refine .bind (h.eval _ (hv.calls .test)) fun _ v' ha => .ite ?_ ?_
    · refine .step (h.own (.next ..) v') fun _ => ?_
      exact hparts elseBody (by simp [Stmt.parts]) _ (hv.calls (.branch ha (.inr rfl)))
    · refine .step (h.own (.next ..) v') fun _ => ?_
      exact hparts thenBody (by simp [Stmt.parts]) _ (hv.calls (.branch ha (.inl rfl)))
  | «while» i test body =>
    have hbody := hparts body (List.mem_singleton_self _)
    exact .get (.andThen (h.whileRounds hbody (hv.calls .while)) fun _ => .pure _)
  | «for» i vars valueVar target body =>
    have hbody := hparts body (List.mem_singleton_self _)
    refine .bind (h.eval _ (hv.calls .iterable)) fun _ _ hval => ?_
    exact .andThen (h.forRounds hbody hv hval) fun _ => .pure _
  | switch i selector cases dispatch =>
    refine .bind (h.eval _ (hv.calls .selector)) fun val v' hval => .heap (.ofAbort ?_)
    rintro ⟨_ | skip, binding⟩ hfind
    · exact Keeps.pure _ v'
    · refine .andThen (h.execCases (fun c hc => ?_) (hv.calls (.arm hval hfind))) fun _ => .pure _
      exact hparts c.body (List.mem_map_of_mem hc)
  | expr i e => exact .andThen (h.eval _ (hv.calls .expr)) fun _ => .pure _
  | print i args =>
    refine .andThen (h.evalList _ (hv.calls .print)) fun _ => ?_
    exact .bind (h.own (.print _)) fun _ => .pure _
  | event i name args =>
    refine .andThen (h.evalList _ (hv.calls .event)) fun _ => ?_
    exact .bind (h.own (.raise ..)) fun _ => .pure _
  | add i target =>
    cases target with
    | index => exact .andThen (h.place (hv.calls .add) fun _ _ => h.own (.add ..)) fun _ => .pure _
    | _ => exact refl_of R v
  | delete i target =>
    cases target with
    | index =>
      exact .andThen (h.place (hv.calls .delete) fun _ _ => h.own (.delete ..)) fun _ => .pure _
    | _ => exact refl_of R v
  | «return» i value =>
    cases value with
    | none => exact Keeps.pure _ v
    | some e => exact .andThen (h.eval _ (hv.calls .return)) fun _ => .pure _
  | init i ids => exact .andThen (h.own (.fresh ..) v) fun _ => .pure _
  | when i test body timeout timeoutBody isReturn =>
    refine .andThen (.andThen ?_ fun _ => h.own (.install ..)) fun _ => .pure _
    cases timeout with
    | none => exact Keeps.pure _ v
    | some e => exact h.deadline (hv.calls .timeout)
  | next | «break» | fallthrough | null => exact Keeps.pure _ v

theorem exec (f : FrameRef) (s : Stmt) : Led fuel op w R f s := by
  induction s using Stmt.tree_induction with
  | h s ih =>
    intro v hv
    rw [Stmt.exec_eq]
    refine .step (h.own (.visit _) v) fun _ => h.acts (fun t ht => ?_) (hv.calls .act)
    exact ih t (s.parts_subset_children ht)

/-! ## Triggers -/

theorem settle {state : TriggerState} {c : Captured}
    (hbody : ∀ b, c.bodyFor state = some b → op.Executes fuel w c.frame b (v.settled t state b)) :
    Leads R v (World.settle fuel t state c) := by
  refine .step (h.own (.change (.leave t state)) v) fun _ => ?_
  cases hb : c.bodyFor state with
  | none => exact Keeps.pure _ _
  | some b =>
    refine .step (h.own (.note _) _) fun _ => .get ?_
    refine .onFault (.andThen (h.exec c.frame b _ (hbody b hb)) fun out => ?_) fun _ => .pure _
    split
    · exact h.own (.change (.modifyTrigger t fun _ => .inl rfl))
    · exact .pure _

theorem check (hv : op.Involves fuel w (.check t) v) : Leads R v (World.check fuel t) := by
  have hstate : Keeps R (do pure ((← get).trigger t).state : Exec TriggerState) :=
    .bind .get fun _ => .pure _
  refine .get ?_
  dsimp only
  split
  · rename_i c _ hc
    have hcond : Leads R v (World.holds c) :=
      .onFault (.andThen (h.eval _ (hv.calls (.cond hc))) fun _ => .pure _) fun _ => .pure _
    refine .bind hcond fun _ v' hheld => .step (h.own (.note _) v') fun _ => ?_
    refine .ite (.andThen (h.settle fun b hb => ?_) fun _ => hstate) (hstate _)
    cases hb
    exact hv.calls (.fire hc hheld)
  · exact Keeps.pure _ v

theorem timeOut (hv : op.Involves fuel w (.timeOut t) v) : Leads R v (World.timeOut fuel t) := by
  refine .get ?_
  dsimp only
  split
  · exact h.settle fun b hb => hv.calls (.giveUp ‹_› hb)
  · exact Keeps.pure _ v

theorem checkEach (hv : op.Involves fuel w (.checkEach ts) v) :
    Leads R v (World.checkEach fuel ts) := by
  induction ts generalizing v with
  | nil => exact Keeps.pure _ v
  | cons t ts ih =>
    have hrest := ih (hv.calls .checkNext)
    refine .bind (h.check (hv.calls .checkFirst)) fun state v' hstate => ?_
    rw [Exec.leaves, World.checkEach, Exec.runFrom_bind, hstate] at hrest
    revert hrest
    dsimp only
    split
    · exact fun hrest => .step (h.own (.change (.modifyStats _)) v') fun _ => hrest
    · exact id

theorem checkBatches {rounds : Nat} (hv : op.Involves fuel w (.checkBatches ts) v) :
    Leads R v (World.checkBatches fuel rounds ts) := by
  induction rounds generalizing ts v with
  | zero => cases ts <;> exact refl_of R v
  | succ rounds ih =>
    cases ts with
    | nil => exact refl_of R v
    | cons t rest =>
      refine .bind (h.checkEach (hv.calls .batch)) fun _ v' hrun => ?_
      refine .step (h.own (.change (.endBatch _)) v') fun _ => .get ?_
      exact .step (h.own (.change .takeFresh) _) fun _ => ih (hv.calls (.nextBatch hrun))

theorem timeOutEach (hv : op.Involves fuel w (.timeOutEach ts) v) :
    Leads R v (World.timeOutEach fuel ts) := by
  induction ts generalizing v with
  | nil => exact Keeps.pure _ v
  | cons t ts ih =>
    exact .bind (h.timeOut (hv.calls .timeOutFirst)) fun _ _ hrun =>
      ih (hv.calls (.timeOutNext hrun))

theorem performs {op' : HostOp} (hv : op.Involves fuel w (.perform op') v) :
    Leads R v (op'.perform fuel) := by
  have hcheckAll {v} (hv : op.Involves fuel w (.perform .checkAll) v) :
      Leads R v (World.checkAll fuel) := by
    refine .get (.step (h.own (.change .takeAll) v) fun _ => ?_)
    exact h.checkBatches (hv.calls .checkAll)
  have hexpire {v now} (hv : op.Involves fuel w (.perform (.expire now)) v) :
      Leads R v (World.expire fuel now) := by
    refine .get (.step (h.own (.change (.takeExpired now)) v) fun _ => ?_)
    refine .andThen (h.timeOutEach (hv.calls .expire)) fun _ => ?_
    exact h.own (.change (.comp (.modifyStats _) .prune))
  cases op' with
  | newFrame => exact h.own (.frame ..) v
  | bind => exact h.own (.write ..) v
  | run script f =>
    exact .onFault (.andThen (h.exec f script.body _ (hv.calls .run)) fun _ => .pure _) fun _ =>
      .pure _
  | checkAll => exact hcheckAll hv
  | expire now => exact hexpire hv
  | advance time =>
    refine .get (.ite (Keeps.pure _ v) (.step (h.own (.change (.setNow time)) v) fun _ => ?_))
    exact .bind (hcheckAll (hv.calls .advance)) fun _ _ hrun =>
      hexpire (hv.calls (.expireAfter hrun))
  | newSession => exact h.own (.change .newSession) v
  | closeSession s => exact h.own (.change (.closeSession s)) v
  | cancelAll => exact h.own (.change .cancelAll) v

/-- No evaluation is left out of those listed. -/
theorem perform : R w ((op.perform fuel).leaves w) := h.performs .refl

end Follows

end HostOp

end Vigil
