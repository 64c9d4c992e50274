import Vigil.Proofs.Deferral.Phases
import Vigil.Script

/-!
# Vigil.Proofs.Deferral.Reentry — what still starts after a deferral

A `return when` leaves the result of its frame to a trigger. Lists stop at
that point, the constructs around them do not look: a loop begins its next
round, a switch goes on to the next arm, and the next handler of an event runs.
The statements that can be entered in this way are read off the syntax
(`Stmt.reentries`), and the first statement to start after a deferral, if there
is one, is always among them.
-/

namespace Vigil

/-! ## Syntax -/

namespace Stmt

mutual

/-- Whether executing the statement can defer the result of its frame. -/
def defers : Stmt → Bool
  | .list _ body | .bodyList _ body => defersList body
  | .cond _ _ thenBody elseBody => defers thenBody || defers elseBody
  | .while _ _ body | .for _ _ _ _ body => defers body
  | .switch _ _ cases _ => defersCases cases
  | .when _ _ _ _ _ isReturn => isReturn
  | _ => false

def defersList : List Stmt → Bool
  | [] => false
  | s :: rest => defers s || defersList rest

def defersCases : List Case → Bool
  | [] => false
  | .mk _ body _ :: rest => defers body || defersCases rest

end

/-- First of several statements. -/
def firstId (ss : List Stmt) : List StmtId := (ss.head?.map id).toList

/-- First statement of several arms. -/
def firstArmId (cases : List Case) : List StmtId := (cases.head?.map (·.body.id)).toList

mutual

/-- Statements that may be entered although the result was deferred: the body
of a loop around the deferral, the arm or the handler after it. -/
def reentries : Stmt → List StmtId
  | .list _ body => reentriesList body
  | .bodyList _ bodies => reentriesEach bodies
  | .cond _ _ thenBody elseBody => reentries thenBody ++ reentries elseBody
  | .while _ _ body | .for _ _ _ _ body =>
    if defers body then body.id :: reentries body else []
  | .switch _ _ cases _ => reentriesCases cases
  | _ => []

def reentriesList : List Stmt → List StmtId
  | [] => []
  | s :: rest => reentries s ++ reentriesList rest

def reentriesEach : List Stmt → List StmtId
  | [] => []
  | s :: rest => reentries s ++ (if defers s then firstId rest else []) ++ reentriesEach rest

def reentriesCases : List Case → List StmtId
  | [] => []
  | .mk _ body _ :: rest =>
    reentries body ++ (if defers body then firstArmId rest else []) ++ reentriesCases rest

end

end Stmt

namespace Stmt

open Exec World

variable {f : FrameRef} {d : Bool} {ids : List StmtId} {fuel : Nat} {s : Stmt}

/-! ## Statements -/

theorem exec_begins (fuel : Nat) (f : FrameRef) (s : Stmt) : Begins f [s.id] (exec fuel f s) := by
  rw [exec_eq]
  exact .visit s.info fun _ => act_moves fuel f s

theorem deadline_calm (timeout : Option Expr) : Calm f (deadline f timeout) := by
  cases timeout with
  | none => exact .pure _
  | some e =>
    have he : Local f (onFault (some <$> e.eval f) fun _ => pure none) :=
      .onFault (.map (e.eval_local f)) fun _ => .pure _
    refine .bind (.of_local he) fun v => ?_
    split
    · refine .bind .get fun w => ?_
      split
      · exact .pure _
      · exact .of_local (.abort _)
    · exact .pure _
    · exact .pure _

theorem printLine_calm (vals : List Value) : Calm f (printLine vals) :=
  .bind (.of_local .heap) fun _ => .bind (.ofStop _) fun _ _ => ⟨rfl, rfl, .rfl⟩

theorem raise_calm (name : String) (args : List Value) : Calm f (raise name args) :=
  fun _ => ⟨rfl, rfl, .rfl⟩

/-- Only a `return when` defers, and nothing starts with it. -/
theorem install_enters (test : Expr) (body : Stmt) (timeoutBody : Option Stmt)
    (timeout : Option Expr) (isReturn : Bool) (span : Span) :
    Enters f isReturn ids (install ⟨test, body, timeoutBody, f⟩ timeout isReturn span) := by
  refine .after_calm (deadline_calm timeout) fun limit w hw => ?_
  change Entered f isReturn ids w (w.install ⟨test, body, timeoutBody, f⟩ limit isReturn span)
  have hframe := frame_install ⟨test, body, timeoutBody, f⟩ limit isReturn span w f
  have hhas : (w.install ⟨test, body, timeoutBody, f⟩ limit isReturn span).HasFrame f :=
    ((Step.install w ⟨test, body, timeoutBody, f⟩ limit isReturn span rfl).hasFrame f).mpr
      hw.hasFrame
  cases isReturn with
  | false =>
    refine ⟨[], ?_, .inl ⟨⟨hhas, ?_⟩, fun e he => by cases he⟩⟩
    · rw [install_eq]
      rfl
    · rw [hframe]
      exact hw.delayed
  -- the deferral is the last entry: nothing has started since
  | true =>
    refine ⟨[.defer f w.nextTrigger], ?_, .inr ⟨rfl, ⟨hhas, ?_⟩, ⟨_, List.mem_singleton_self _, ?_⟩,
      fun id hid => ?_⟩⟩
    · rw [install_eq]
      rfl
    · rw [hframe, if_pos rfl, frame_modifyFrame_self hw.hasFrame]
      rfl
    · simp [Entry.isDeferral]
    · simp [startedSince, Entry.isDeferral, started] at hid

/-- A list stops where the result is deferred. -/
theorem list_resumes (out : Outcome) (k : Exec Outcome) :
    Resumes f ids (hasDelayed f >>= fun delayed =>
      if out.flow ≠ .next || out.value.isSome || delayed then pure out else k) := by
  intro w hw
  unfold leaves
  rw [runFrom_bind, runFrom_hasDelayed, hw.delayed]
  simp only [Bool.or_true, if_true, runFrom_pure]
  exact ⟨hw, [], .nil rfl, fun id hid => by cases hid⟩

theorem execEach_resumes (fuel : Nat) (ss : List Stmt) :
    Resumes f (firstId ss) (execEach fuel f ss) := by
  cases ss with
  | nil =>
    rw [execEach]
    exact (Calm.pure _).resumes
  | cons s rest =>
    rw [execEach]
    refine .bind (Calm.setNext _).resumes fun _ => (Begins.bind ?_ fun _ => ?_).resumes
    · exact (exec_begins fuel f s).onFault fun _ => .pure _
    · exact execEach_moves fuel f rest

theorem execCases_resumes (fuel : Nat) {bind : Exec Unit} (hbind : Local f bind)
    (cases : List Case) (last : Outcome) :
    Resumes f (firstArmId cases) (execCases fuel f bind 0 cases last) := by
  rcases cases with _ | ⟨⟨_, body, _⟩, rest⟩
  · rw [execCases]
    exact (Calm.pure _).resumes
  · rw [execCases]
    refine .bind (Calm.of_local hbind).resumes fun _ =>
      ((exec_begins fuel f body).bind fun out => ?_).resumes
    split
    · exact .pure _
    · exact execCases_moves fuel f (.of_local hbind) 0 rest out

theorem exec_enters_of (h : Enters f d ids (act fuel f s)) : Enters f d ids (exec fuel f s) := by
  rw [exec_eq]
  exact .bind (show Enters f false ids _ from .visit s.info) nofun (fun _ => h) nofun

/-- The body of a loop goes on with itself. -/
theorem exec_continues (h : Enters f s.defers s.reentries (act fuel f s)) :
    Continues f s.defers (if s.defers then s.id :: s.reentries else []) (exec fuel f s) where
  enters := (exec_enters_of h).mono (fun h => h) fun hd => by
    rw [if_pos hd]
    exact List.subset_cons_self _ _
  resumes hd := ((exec_begins fuel f s).mono (by simp [hd])).resumes

mutual

theorem act_enters (fuel : Nat) (f : FrameRef) :
    ∀ s : Stmt, Enters f s.defers s.reentries (act fuel f s)
  | .list _ body => by
    rw [act, defers, reentries]
    exact execList_enters fuel f body
  | .bodyList _ bodies => by
    rw [act, defers, reentries]
    exact .before_calm (execEach_enters fuel f bodies) fun _ => .pure _
  | .expr _ e => by
    rw [act]
    exact (Calm.of_local (.bind (e.eval_local f) fun _ => .pure _)).enters
  | .print _ args => by
    rw [act]
    exact .after_calm (.of_local (Expr.evalList_local f args)) fun _ =>
      (Calm.bind (printLine_calm _) fun _ => .pure _).enters
  | .event _ name args => by
    rw [act]
    exact .after_calm (.of_local (Expr.evalList_local f args)) fun _ =>
      (Calm.bind (raise_calm _ _) fun _ => .pure _).enters
  | .cond _ test thenBody elseBody => by
    rw [act, defers, reentries]
    refine .after_calm (.of_local (test.eval_local f)) fun v => ?_
    split
    · exact .after_calm (.setNext _) fun _ => (exec_enters_of (act_enters fuel f elseBody)).mono
        (fun h => by simp [h]) fun _ => List.subset_append_right _ _
    · exact .after_calm (.setNext _) fun _ => (exec_enters_of (act_enters fuel f thenBody)).mono
        (fun h => by simp [h]) fun _ => List.subset_append_left _ _
  | .while _ test body => by
    rw [act, defers, reentries]
    have hbody := exec_continues (act_enters fuel f body)
    exact .after_calm .get fun _ => .before_calm (Continues.sequential.whileRounds
      (Calm.of_local (test.eval_local f)).continues hbody _ _).enters fun _ => .pure _
  | .for _ vars valueVar target body => by
    rw [act, defers, reentries]
    exact .after_calm (.of_local (target.eval_local f)) fun _ => .before_calm
      (Continues.forRounds fuel vars valueVar _ (exec_continues (act_enters fuel f body))).enters
      fun _ => .pure _
  | .switch _ selector cases dispatch => by
    rw [act, defers, reentries]
    refine .after_calm (.of_local (selector.eval_local f)) fun v => .after_calm (.of_local .heap)
      fun h => .after_calm (.of_local (.ofAbort _)) fun found => ?_
    split
    split
    · exact (Calm.pure _).enters
    · exact .before_calm (execCases_enters fuel f (bindCase_local v _) _ cases _) fun _ => .pure _
  | .add _ target => by
    rw [act]
    exact (Calm.of_local (.bind (target.addTo_local f) fun _ => .pure _)).enters
  | .delete _ target => by
    rw [act]
    exact (Calm.of_local (.bind (target.deleteFrom_local f) fun _ => .pure _)).enters
  | .next _ | .break _ | .fallthrough _ | .return _ none | .null _ => by
    rw [act]
    exact (Calm.pure _).enters
  | .return _ (some e) => by
    rw [act]
    exact (Calm.of_local (.bind (e.eval_local f) fun _ => .pure _)).enters
  | .init _ idents => by
    rw [act]
    exact (Calm.of_local (.bind (giveFresh_local idents) fun _ => .pure _)).enters
  | .when _ test body timeout timeoutBody isReturn => by
    rw [act, defers]
    exact .before_calm (install_enters test body timeoutBody timeout isReturn _) fun _ => .pure _

theorem execList_enters (fuel : Nat) (f : FrameRef) :
    ∀ ss : List Stmt, Enters f (defersList ss) (reentriesList ss) (execList fuel f ss)
  | [] => by
    rw [execList]
    exact (Calm.pure _).enters
  | s :: rest => by
    rw [execList, defersList, reentriesList]
    have hs : Enters f s.defers (reentries s ++ reentriesList rest) (exec fuel f s) :=
      (exec_enters_of (act_enters fuel f s)).mono (fun h => h) fun _ =>
        List.subset_append_left _ _
    -- after a deferral in `s` the list ends, so nothing of the rest is entered again
    refine .after_calm (.setNext _) fun _ => hs.bind (fun h => by simp [h]) (fun out => ?_)
      fun _ out => list_resumes out _
    refine .after_calm (fun _ => ⟨rfl, rfl, .rfl⟩) fun delayed => ?_
    split
    · exact (Calm.pure _).enters
    · exact (execList_enters fuel f rest).mono (fun h => by simp [h]) fun _ =>
        List.subset_append_right _ _

theorem execEach_enters (fuel : Nat) (f : FrameRef) :
    ∀ ss : List Stmt, Enters f (defersList ss) (reentriesEach ss) (execEach fuel f ss)
  | [] => by
    rw [execEach]
    exact (Calm.pure _).enters
  | s :: rest => by
    rw [execEach, defersList, reentriesEach]
    refine .after_calm (.setNext _) fun _ => .bind (.onFault ((exec_enters_of
      (act_enters fuel f s)).mono (fun h => h) fun _ => ?_) (fun _ => (Calm.pure _).enters)
      fun _ _ => (Calm.pure _).resumes) (fun h => ?_) (fun _ => ?_) fun hd _ => ?_
    · rw [List.append_assoc]
      exact List.subset_append_left _ _
    · simp [h]
    · exact (execEach_enters fuel f rest).mono (fun h => by simp [h]) fun _ =>
        List.subset_append_right _ _
    · -- handlers go on after a deferral: the next one is entered again
      refine (execEach_resumes fuel rest).mono ?_
      rw [if_pos hd, List.append_assoc]
      exact fun _ h => List.mem_append_right _ (List.mem_append_left _ h)

theorem execCases_enters (fuel : Nat) (f : FrameRef) {bind : Exec Unit} (hbind : Local f bind) :
    ∀ (skip : Nat) (cases : List Case) (last : Outcome),
      Enters f (defersCases cases) (reentriesCases cases) (execCases fuel f bind skip cases last)
  | _, [], _ => by
    rw [execCases]
    exact (Calm.pure _).enters
  | skip + 1, .mk _ _ _ :: rest, last => by
    rw [execCases, defersCases, reentriesCases]
    exact (execCases_enters fuel f hbind skip rest last).mono (fun h => by simp [h]) fun _ =>
      List.subset_append_right _ _
  | 0, .mk _ body _ :: rest, _ => by
    rw [execCases, defersCases, reentriesCases]
    refine .after_calm (.of_local hbind) fun _ => .bind ((exec_enters_of
      (act_enters fuel f body)).mono (fun h => h) fun _ => ?_) (fun h => ?_) (fun out => ?_)
      fun hd out => ?_
    · rw [List.append_assoc]
      exact List.subset_append_left _ _
    · simp [h]
    · exact .ite (Calm.pure _).enters ((execCases_enters fuel f hbind 0 rest out).mono
        (fun h => by simp [h]) fun _ => List.subset_append_right _ _)
    · -- so does a switch whose arm did not report that it stops
      refine .ite (Calm.pure _).resumes ((execCases_resumes fuel hbind rest out).mono ?_)
      rw [if_pos hd, List.append_assoc]
      exact fun _ h => List.mem_append_right _ (List.mem_append_left _ h)

end

end Stmt

/-! ## Runs -/

namespace Script

open World (Undeferred)

variable {f : FrameRef} {w : World}

/-- What starts first after a deferral was entered again. -/
theorem head?_startedSince_mem (script : Script) (fuel : Nat) (hw : Undeferred f w) :
    ∀ id ∈ (startedSince f ((script.run fuel f).log w)).head?, id ∈ script.body.reentries := by
  obtain ⟨log, hlog, h⟩ := Stmt.exec_enters_of (Stmt.act_enters fuel f script.body) w hw
  rw [show (script.run fuel f).log w = log from Exec.log_eq hlog]
  rcases h with ⟨-, hnone⟩ | ⟨-, -, -, hids⟩
  · have hempty : startedSince f (log ++ []) = startedSince f [] := startedSince_append_of_all hnone
    rw [List.append_nil] at hempty
    rw [hempty]
    nofun
  · exact hids

/-- A deferral ends a run unless one of the statements the syntax tells is
entered again; a unit without such statements always ends its run there. -/
theorem deferral_ends_run_iff (script : Script) (fuel : Nat) (hw : Undeferred f w) :
    (startedSince f ((script.run fuel f).log w) = [] ↔
      ∀ id ∈ startedSince f ((script.run fuel f).log w), id ∉ script.body.reentries) ∧
    (script.body.reentries = [] → startedSince f ((script.run fuel f).log w) = []) := by
  -- if anything starts after the deferral, the first to start is a reentry
  have hfirst := script.head?_startedSince_mem fuel hw
  revert hfirst
  cases startedSince f ((script.run fuel f).log w) with
  | nil =>
    intro _
    exact ⟨⟨nofun, fun _ => rfl⟩, fun _ => rfl⟩
  | cons id rest =>
    intro hfirst
    have hid : id ∈ script.body.reentries := hfirst id rfl
    refine ⟨⟨nofun, fun h => absurd hid (h id List.mem_cons_self)⟩, fun h => ?_⟩
    rw [h] at hid
    cases hid

/-- A `return when` with a statement after it. -/
def deferringList : Doc.Unit where
  name := "u"
  kind := .toplevel
  locals := []
  body := .list [.when (.const (.bool true)) .null none true, .print [.const (.str "again")]]

/-- A deferral in a list ends the run. -/
theorem deferral_ends_list :
    ∃ w : World, Undeferred ⟨0⟩ w ∧
      (∃ e ∈ ((build deferringList 0).run 1 ⟨0⟩).log w, e.isDeferral ⟨0⟩) ∧
      startedSince ⟨0⟩ (((build deferringList 0).run 1 ⟨0⟩).log w) = [] := by
  have hw : Undeferred ⟨0⟩ ((World.start default default).addFrame 0 none).2 := ⟨by decide, rfl⟩
  exact ⟨_, hw, by decide +kernel,
    (deferral_ends_run_iff (build deferringList 0) 1 hw).2 (by decide +kernel)⟩

/-- A switch whose first arm defers the result and then breaks. -/
def deferringArm : Doc.Unit where
  name := "u"
  kind := .toplevel
  locals := []
  body := .switch (.const (.bool true))
    [.mk (some [.const (.bool true)]) none
        (.list [.when (.const (.bool true)) .null none true, .break]),
     .mk none none (.list [.print [.const (.str "again")], .break])]

/-- The switch goes on to its next arm after the deferral. -/
theorem deferral_goes_on_to_next_arm :
    ∃ script, Script.load deferringArm 0 = .ok script ∧
      ∃ w : World, Undeferred ⟨0⟩ w ∧
        startedSince ⟨0⟩ ((script.run 1 ⟨0⟩).log w) ≠ [] ∧
        ((script.run 1 ⟨0⟩).leaves w).output = #["again"] := by
  have hload : (Script.build deferringArm 0).hasErrors = false := by decide +kernel
  exact ⟨.build deferringArm 0, load_eq_ok_iff.mpr ⟨rfl, hload⟩,
    ((World.start default default).addFrame 0 none).2, ⟨by decide, rfl⟩, by decide +kernel,
    by decide +kernel⟩

end Script

end Vigil
