import Vigil.Proofs.Exec.Calls
import Vigil.Proofs.Trigger.Parallel

/-!
# Vigil.Proofs.Trigger.Invariant — what holds while an operation is performed

A property of engines is an invariant of a set of statements when what is
clerical keeps it, and so does all that statements of the set do
(`World.Invariant`). It then holds after every history in which the host runs
statements of the set only (`World.Invariant.everIn`), and also in between: if the
set contains with each statement its children, it holds whenever a statement is
executed, be it by a script or by a trigger in the middle of a pass
(`World.Invariant.executes`).
-/

namespace Vigil

variable {op : HostOp}

/-- The script of an operation, if it runs one, is in the set. -/
def HostOp.RunsIn (P : FrameRef → Stmt → Prop) : HostOp → Prop
  | .run script f => P f script.body
  | _ => True

theorem HostOp.RunsIn.mono {P Q : FrameRef → Stmt → Prop} (hPQ : ∀ f s, P f s → Q f s)
    (h : op.RunsIn P) : op.RunsIn Q := by
  cases op with
  | run script f => exact hPQ f script.body h
  | _ => trivial

/-- The statements of a task are in the set. -/
def Task.Within (P : FrameRef → Stmt → Prop) : Task → Prop
  | .exec f s | .act f s => P f s
  | .execList f ss | .execEach f ss => ∀ s ∈ ss, P f s
  | .execCases f _ _ _ cases => ∀ c ∈ cases, P f c.body
  | .whileRounds f _ body | .tableRounds f _ _ _ body _ | .vectorRounds f _ body _
  | .stringRounds f _ body _ => P f body
  | .perform op => op.RunsIn P
  | _ => True

namespace World

open Exec (Keeps)
open Relation (ReflTransGen)

/-- A property that all operations keep which run statements of the set only. -/
structure Invariant (P : FrameRef → Stmt → Prop) (I : World → Prop) : Prop where
  clerical : ∀ {w g}, Clerical g → I w → I (g w)
  note : ∀ {w e}, (∀ i, Entry.startOf? i e = none) → I w →
    I { w with journal := e :: w.journal }
  visit : ∀ {w f s}, P f s → I w → I ((Exec.visit s.info).leaves w)
  setNext : ∀ f s, Keeps (Preserves I) (Exec.setNext f s)
  enter : ∀ r, Keeps (Preserves I) (Exec.modifyTable r Table.enter)
  writeSlot : ∀ f i v, Keeps (Preserves I) (Exec.writeSlot f i v)
  eval : ∀ f (e : Expr), Keeps (Preserves I) (e.eval f)
  exec : ∀ {f s}, P f s → ∀ fuel, Keeps (Preserves I) (s.exec fuel f)
  /-- What a trigger holds is in the set. -/
  body : ∀ {w t c state b}, I w → (w.trigger t).captured = some c →
    c.bodyFor state = some b → P c.frame b
  addFrame : ∀ {w} size session, I w → I (w.addFrame size session).2

/-- Some sequence of operations that run scripts of the set only, whatever came
of each of them, leads from `w` to `w'`. -/
def EverIn (P : FrameRef → Stmt → Prop) : World → World → Prop :=
  ReflTransGen fun w w' =>
    ∃ (op : HostOp) (fuel : Nat), op.RunsIn P ∧ w' = (op.perform fuel).leaves w

variable {P Q : FrameRef → Stmt → Prop} {I : World → Prop} {w₀ w w' : World} {fuel : Nat}

theorem EverIn.perform (h : EverIn P w₀ w) (op : HostOp) (fuel : Nat)
    (hop : op.RunsIn P) : EverIn P w₀ ((op.perform fuel).leaves w) :=
  h.tail ⟨op, fuel, hop, rfl⟩

/-- A script was run in the first frame. -/
theorem EverIn.ran {now : Instant} {limits : Limits} (script : Script) (size fuel : Nat) :
    EverIn (fun _ _ => True) (.start now limits) (((HostOp.run script ⟨0⟩).perform fuel).leaves
      (((HostOp.newFrame size none).perform 0).leaves (.start now limits))) := by
  have hstart : EverIn (fun _ _ => True) (.start now limits) (.start now limits) := .refl
  exact (hstart.perform (.newFrame size none) 0 trivial).perform (.run script ⟨0⟩) fuel trivial

theorem EverIn.mono (hPQ : ∀ f s, P f s → Q f s) (h : EverIn P w₀ w) : EverIn Q w₀ w := by
  refine ReflTransGen.mono ?_ _ _ h
  rintro w w' ⟨op, fuel, hop, hw'⟩
  exact ⟨op, fuel, hop.mono hPQ, hw'⟩

namespace Invariant

theorem scheduled (hI : Invariant P I) : Scheduled I (Keeps (Preserves I)) :=
  .of_preserves hI.clerical hI.note (fun _ _ => hI.eval _ _) fun hw hc hb =>
    hI.exec (hI.body hw hc hb)

theorem perform (hI : Invariant P I) (fuel : Nat) (hop : op.RunsIn P) :
    Keeps (Preserves I) (op.perform fuel) := by
  refine hI.scheduled.perform op ?_ (fun f slot v _ => hI.writeSlot f slot v) ?_
  · exact fun size session _ w hw => hI.addFrame size session hw
  · rintro script f rfl
    exact hI.exec hop fuel

/-- It holds after every history. -/
theorem everIn (hI : Invariant P I) (h : EverIn P w₀ w) (h₀ : I w₀) : I w := by
  induction h with
  | refl => exact h₀
  | tail _ hstep ih =>
    obtain ⟨op, fuel, hop, rfl⟩ := hstep
    exact hI.perform fuel hop _ ih

theorem settled (hI : Invariant P I) (t : TriggerRef) (state : TriggerState) (body : Stmt)
    (h : I w) : I (w.settled t state body) :=
  hI.note (fun _ => rfl) (hI.clerical (.leave t state) h)

/-- A call that is made by a task of the set is one of the set, and the property
holds when it is made. -/
theorem calls (hI : Invariant P I) (hP : ∀ f s, P f s → ∀ t ∈ s.children, P f t) {a b : Task}
    (h : Task.Calls fuel w a w' b) (hw : I w) (ha : a.Within P) : I w' ∧ b.Within P := by
  -- what is between the calls: evaluations, executions and the binding of variables
  have after {w w' : World} {f : FrameRef} {e : Expr} {v : Value} (hw : I w)
      (h : (e.eval f).runFrom w = (.ok v, w')) : I w' := (hI.eval f e).run h hw
  have ran {w w' : World} {f : FrameRef} {s : Stmt} {out : Outcome} (hs : P f s) (hw : I w)
      (h : (s.exec fuel f).runFrom w = (.ok out, w')) : I w' := (hI.exec hs fuel).run h hw
  have written {w' : World} {f : FrameRef} {i : Nat} {v : Value}
      (h : (Exec.writeSlot f i v).runFrom w = (.ok (), w')) : I w' :=
    (hI.writeSlot f i v).run h hw
  have taken {w' : World} {f : FrameRef} {v : Value} {x : Option Ident}
      (h : (Stmt.bindCase f v x).runFrom w = (.ok (), w')) : I w' :=
    (Stmt.bindCase_keeps fun _ _ => hI.writeSlot f _).run h hw
  have bound {w' : World} {f : FrameRef} {vars : List Ident} {x : Option Ident}
      {index : List Value} {v : Option Value}
      (h : (Stmt.bindEntry f vars x index v).runFrom w = (.ok (), w')) : I w' :=
    (Stmt.bindEntry_keeps (fun _ _ => hI.writeSlot f _) index v).run h hw
  cases h with
  | operand | sized | left | value | element | container | collection | head | expr | print
  | event | test | iterable | selector | add | delete | «return» | timeout | whileTest | cond
  | checkFirst | batch | timeOutFirst => exact ⟨hw, trivial⟩
  | right h | target h | index h | member h | tail h => exact ⟨after hw h, trivial⟩
  | act => exact ⟨hI.visit ha hw, ha⟩
  | list | bodyList => exact ⟨hw, fun t ht => hP _ _ ha t ht⟩
  | branch h hs =>
    refine ⟨hI.setNext _ _ _ (after hw h), hP _ _ ha _ ?_⟩
    rcases hs with rfl | rfl
    · exact List.mem_cons_self
    · exact List.mem_cons_of_mem _ (List.mem_singleton_self _)
  | «while» => exact ⟨hw, hP _ _ ha _ (List.mem_singleton_self _)⟩
  | overTable h =>
    exact ⟨hI.enter _ _ (after hw h), hP _ _ ha _ (List.mem_singleton_self _)⟩
  | overVector h | overString h =>
    exact ⟨after hw h, hP _ _ ha _ (List.mem_singleton_self _)⟩
  | arm h _ => exact ⟨after hw h, fun c hc => hP _ _ ha _ (List.mem_map_of_mem hc)⟩
  | first | handler => exact ⟨hI.setNext _ _ _ hw, ha _ List.mem_cons_self⟩
  | next h =>
    exact ⟨ran (ha _ List.mem_cons_self) (hI.setNext _ _ _ hw) h,
      fun t ht => ha t (List.mem_cons_of_mem _ ht)⟩
  | nextHandler =>
    exact ⟨hI.exec (ha _ List.mem_cons_self) fuel _ (hI.setNext _ _ _ hw),
      fun t ht => ha t (List.mem_cons_of_mem _ ht)⟩
  | skip => exact ⟨hw, fun c hc => ha c (List.mem_cons_of_mem _ hc)⟩
  | case h => exact ⟨taken h, ha _ List.mem_cons_self⟩
  | nextCase h hout =>
    exact ⟨ran (ha _ List.mem_cons_self) (taken h) hout,
      fun c hc => ha c (List.mem_cons_of_mem _ hc)⟩
  | whileBody h => exact ⟨after hw h, ha⟩
  | whileNext h hout => exact ⟨ran ha (after hw h) hout, ha⟩
  | absentKey | emptySlot => exact ⟨hw, ha⟩
  | tableBody _ _ h => exact ⟨bound h, ha⟩
  | tableNext _ _ h hout => exact ⟨ran ha (bound h) hout, ha⟩
  | vectorBody h | stringBody h => exact ⟨written h, ha⟩
  | vectorNext h hout | stringNext h hout => exact ⟨ran ha (written h) hout, ha⟩
  | @fire _ t c _ hc h =>
    have hheld := (hI.scheduled.holds hw hc).run h hw
    have hbody : c.bodyFor .fired = some c.body := rfl
    exact ⟨hI.settled _ _ _ (hI.note (fun _ => rfl) hheld), hI.body hw hc hbody⟩
  | giveUp hc hs =>
    have hbody : Captured.bodyFor _ .timedOut = some _ := hs
    exact ⟨hI.settled _ _ _ hw, hI.body hw hc hbody⟩
  | checkNext => exact ⟨hI.scheduled.checkEach _ _ hw, trivial⟩
  | nextBatch h =>
    have hchecked := (hI.scheduled.checkEach _).run h hw
    exact ⟨hI.clerical .takeFresh (hI.clerical (.endBatch _) hchecked), trivial⟩
  | timeOutNext h => exact ⟨(hI.scheduled.timeOut _).run h hw, trivial⟩
  | run => exact ⟨hw, ha⟩
  | checkAll => exact ⟨hI.clerical .takeAll hw, trivial⟩
  | expire => exact ⟨hI.clerical (.takeExpired _) hw, trivial⟩
  | advance => exact ⟨hI.clerical (.setNow _) hw, trivial⟩
  | @expireAfter _ time h =>
    have hnow := hI.clerical (.setNow time) hw
    exact ⟨hI.scheduled.checkAll.run h hnow, trivial⟩

/-- It holds whenever a statement is executed, and the statement is in the set. -/
theorem executes (hI : Invariant P I) (hP : ∀ f s, P f s → ∀ t ∈ s.children, P f t) {f : FrameRef}
    {s : Stmt} (h : op.Executes fuel w f s w') (hop : op.RunsIn P) (hw : I w) : I w' ∧ P f s :=
  h.induct (J := fun w a => I w ∧ a.Within P) ⟨hw, hop⟩ fun hcall hall =>
    hI.calls hP hcall hall.1 hall.2

end Invariant

end World

end Vigil
