import Vigil.World.Schedule

/-!
# Vigil.Proofs.Exec.Run — running a computation from a world

`runFrom` is the one view of a computation that later modules use: what it
answers and the world it leaves. Each way to build a computation has its
equation here, and a sequence that succeeded comes apart into its parts
(`bind_ok`).
-/

namespace Vigil.Exec

variable {α β : Type}

/-- Answer of a computation started in `w`, and the world it leaves. -/
def runFrom (x : Exec α) (w : World) : Except Stop α × World := x.run w

/-- The world a computation started in `w` leaves. -/
def leaves (x : Exec α) (w : World) : World := (x.runFrom w).2

/-- Whether a run came back: with a result, or with an error of the script. -/
def cameBack : Except Stop α → Bool
  | .ok _ | .error (.fault _) => true
  | .error (.abort _) | .error .exhausted => false

@[simp] theorem runFrom_pure (a : α) (w : World) : (pure a : Exec α).runFrom w = (.ok a, w) := rfl

theorem runFrom_bind (x : Exec α) (k : α → Exec β) (w : World) :
    (x >>= k).runFrom w = match x.runFrom w with
      | (.ok a, w') => (k a).runFrom w'
      | (.error s, w') => (.error s, w') := by
  change ExceptT.bindCont k (x.run w).1 (x.run w).2 = _
  unfold runFrom
  rcases x.run w with ⟨_ | a, w'⟩ <;> rfl

@[simp] theorem runFrom_get (w : World) : (get : Exec World).runFrom w = (.ok w, w) := rfl

@[simp] theorem runFrom_modify (g : World → World) (w : World) :
    (modify g : Exec PUnit).runFrom w = (.ok ⟨⟩, g w) := rfl

@[simp] theorem runFrom_setHeap (h : Heap) (w : World) :
    (setHeap h).runFrom w = (.ok (), { w with heap := h }) := rfl

@[simp] theorem runFrom_note (e : Entry) (w : World) :
    (note e).runFrom w = (.ok (), { w with journal := e :: w.journal }) := rfl

@[simp] theorem runFrom_visit (i : StmtInfo) (w : World) :
    (visit i).runFrom w = (.ok (), { w with journal := .start i.id w.now :: w.journal }) := rfl

@[simp] theorem runFrom_clearSlot (f : FrameRef) (i : Nat) (w : World) :
    (clearSlot f i).runFrom w =
      (.ok (), w.modifyFrame f fun fr => { fr with slots := fr.slots.clear i }) := rfl

@[simp] theorem runFrom_hasDelayed (f : FrameRef) (w : World) :
    (hasDelayed f).runFrom w = (.ok (w.frame f).delayed.isSome, w) := rfl

theorem runFrom_readSlot (f : FrameRef) (i : Nat) (name : String) (w : World) :
    (readSlot f i name).runFrom w = match (w.frame f).slots.get i with
      | some v => (.ok v, w)
      | none => (.error (.fault (.unbound name)), w) := by
  unfold readSlot
  rw [runFrom_bind, runFrom_get]
  dsimp only
  cases (w.frame f).slots.get i <;> rfl

theorem runFrom_writeSlot (f : FrameRef) (i : Nat) (v : Value) (w : World) :
    (writeSlot f i v).runFrom w = match (w.frame f).slots.set i v with
      | .ok slots => (.ok (), w.modifyFrame f fun fr => { fr with slots := slots })
      | .error a => (.error (.abort a), w) := by
  unfold writeSlot
  rw [runFrom_bind, runFrom_get]
  dsimp only
  cases (w.frame f).slots.set i v <;> rfl

theorem runFrom_onFault (x : Exec α) (recover : Fault → Exec α) (w : World) :
    (onFault x recover).runFrom w = match x.runFrom w with
      | (.error (.fault e), w') => (recover e).runFrom w'
      | r => r := by
  change ExceptT.tryCatch x _ w = _
  simp only [ExceptT.tryCatch, ExceptT.mk, bind, StateT.bind, runFrom, ExceptT.run]
  rcases x w with ⟨(_ | _ | _) | a, w'⟩ <;> rfl

theorem runFrom_of_answer {x : Exec α} {w : World} {r : Except Stop α}
    (h : (x.runFrom w).1 = r) : x.runFrom w = (r, x.leaves w) :=
  Prod.ext h rfl

/-- A computation for its effect that succeeds gives no more than the world it
leaves. -/
theorem runFrom_of_isOk {x : Exec Unit} {w : World} (h : (x.runFrom w).1.isOk) :
    x.runFrom w = (.ok (), x.leaves w) := by
  refine Prod.ext ?_ rfl
  revert h
  rcases (x.runFrom w).1 with _ | _
  · nofun
  · intro _
    rfl

/-! ## Sequences -/

/-- A sequence ends where its first part does, or where the second does. -/
theorem leaves_bind (x : Exec α) (k : α → Exec β) (w : World) :
    (x >>= k).leaves w = x.leaves w ∨ ∃ a, (x >>= k).leaves w = (k a).leaves (x.leaves w) := by
  unfold leaves
  rw [runFrom_bind]
  rcases x.runFrom w with ⟨s | a, w₁⟩
  · exact .inl rfl
  · exact .inr ⟨a, rfl⟩

theorem leaves_onFault (x : Exec α) (recover : Fault → Exec α) (w : World) :
    (onFault x recover).leaves w = x.leaves w ∨
      ∃ e, (onFault x recover).leaves w = (recover e).leaves (x.leaves w) := by
  unfold leaves
  rw [runFrom_onFault]
  rcases x.runFrom w with ⟨(e | a | _) | a, w₁⟩
  · exact .inr ⟨e, rfl⟩
  all_goals exact .inl rfl

/-- A sequence succeeds only through both of its parts. -/
theorem bind_ok {x : Exec α} {k : α → Exec β} {w w' : World} {b : β}
    (h : (x >>= k).runFrom w = (.ok b, w')) :
    ∃ a w₁, x.runFrom w = (.ok a, w₁) ∧ (k a).runFrom w₁ = (.ok b, w') := by
  rw [runFrom_bind] at h
  rcases hx : x.runFrom w with ⟨s | a, w₁⟩
  · rw [hx] at h
    cases h
  · rw [hx] at h
    exact ⟨a, w₁, rfl, h⟩

end Vigil.Exec

namespace Vigil.Stmt

/-! ## Statements -/

/-- What a statement does once it has entered the journal. -/
def act (fuel : Nat) (f : FrameRef) : Stmt → Exec Outcome
  | .list _ body => execList fuel f body
  | .bodyList _ bodies => do
    execEach fuel f bodies
    pure .next
  | .expr _ e => do
    let _ ← e.eval f
    pure .next
  | .print _ args => do
    let vals ← Expr.evalList f args
    printLine vals
    pure .next
  | .event _ name args => do
    let vals ← Expr.evalList f args
    raise name vals
    pure .next
  | .cond _ test thenBody elseBody => do
    let v ← test.eval f
    if v.isZero then
      Exec.setNext f elseBody.id
      exec fuel f elseBody
    else
      Exec.setNext f thenBody.id
      exec fuel f thenBody
  | .while _ test body => do
    let limit := (← get).limits.maxLoopRounds
    let out ← whileRounds limit (test.eval f) (exec fuel f body) fuel 0 .next
    pure out.afterLoop
  | .for _ vars valueVar target body => do
    let v ← target.eval f
    let out ← forRounds fuel f vars valueVar v (exec fuel f body)
    pure out.afterLoop
  | .switch _ selector cases dispatch => do
    let v ← selector.eval f
    let (arm, binding) ← Exec.ofAbort (dispatch.find (← Exec.heap) selector.ty v)
    match arm with
    | none => pure .next
    | some arm =>
      let out ← execCases fuel f (bindCase f v binding) arm cases .next
      pure out.afterSwitch
  | .add _ target => do
    target.addTo f
    pure .next
  | .delete _ target => do
    target.deleteFrom f
    pure .next
  | .next _ => pure (.ofFlow .loop)
  | .break _ => pure (.ofFlow .break)
  | .fallthrough _ => pure (.ofFlow .fallthrough)
  | .return _ (some e) => do
    let v ← e.eval f
    pure ⟨some v, .return⟩
  | .return _ none => pure (.ofFlow .return)
  | .init _ idents => do
    giveFresh f idents
    pure .next
  | .null _ => pure .next
  | .when i test body timeout timeoutBody isReturn => do
    install ⟨test, body, timeoutBody, f⟩ timeout isReturn i.span
    pure .next

/-- Every statement enters the journal first. -/
theorem exec_eq (fuel : Nat) (f : FrameRef) (s : Stmt) :
    exec fuel f s = (do Exec.visit s.info; act fuel f s) := by
  cases s
  case «return» i value => cases value <;> rw [exec] <;> rfl
  all_goals
    rw [exec]
    rfl

end Vigil.Stmt
