import Mathlib.Data.List.Forall2
import Vigil.Proofs.Build.Order

/-!
# Vigil.Proofs.Build.Passed — every statement of a loaded unit passed its checks

Problems and broken invariants are never taken back while a unit is built. So
when the whole construction ended without any, each of its parts did, and what
is checked where a statement is made holds of that statement in the finished
unit. Here this is carried through all statements for what is known about
switches: the switches of a loaded unit are those of its document, in order, and
the arms and the dispatch of each are what `Dispatch.ofCases` makes, without a
problem, of the arms as written (`Script.switches_passed`). Types play no part
in it.
-/

namespace Vigil

/-! ## Switches -/

namespace Doc

mutual

/-- The switches of a statement in the order they are written, each before
those in its arms. -/
def switches : Stmt → List Switch
  | .list body _ | .bodyList body _ => switchesList body
  | .cond _ thenBody elseBody _ => switches thenBody ++ switchesOption elseBody
  | .while _ body _ | .for _ _ _ body _ => switches body
  | .switch selector cases _ => ⟨selector, cases⟩ :: switchesCases cases
  | .when _ body timeout _ _ => switches body ++ switchesTimeout timeout
  | .expr .. | .print .. | .event .. | .add .. | .delete .. | .next _ | .break _ | .fallthrough _
  | .return .. | .init .. | .null _ => []

def switchesList : List Stmt → List Switch
  | [] => []
  | s :: rest => switches s ++ switchesList rest

def switchesOption : Option Stmt → List Switch
  | none => []
  | some s => switches s

def switchesTimeout : Option Timeout → List Switch
  | none => []
  | some (.mk _ body) => switchesOption body

def switchesCases : List Case → List Switch
  | [] => []
  | .mk _ _ body _ :: rest => switches body ++ switchesCases rest

end

theorem switchesList_eq (body : List Stmt) : switchesList body = body.flatMap switches := by
  induction body with
  | nil => rfl
  | cons s rest ih => rw [switchesList, ih, List.flatMap_cons]

theorem switchesCases_eq (cases : List Case) :
    switchesCases cases = (cases.map Case.body).flatMap switches := by
  induction cases with
  | nil => rfl
  | cons c rest ih =>
    obtain ⟨values, types, body, span⟩ := c
    rw [switchesCases, ih]
    rfl

/-- A switch comes before those in its parts. -/
theorem switches_eq (s : Stmt) : switches s = s.switch?.toList ++ s.parts.flatMap switches := by
  have hoption : ∀ o, switchesOption o = o.toList.flatMap switches := by
    rintro (_ | s)
    · rfl
    · exact (List.append_nil _).symm
  cases s with
  | list | bodyList => exact switchesList_eq _
  | cond => exact congrArg (_ ++ ·) (hoption _)
  | «while» | «for» => exact (List.append_nil _).symm
  | switch => exact congrArg (_ :: ·) (switchesCases_eq _)
  | «when» test body timeout isReturn span =>
    refine congrArg (switches body ++ ·) ?_
    rcases timeout with _ | ⟨e, o⟩
    · rfl
    · exact hoption o
  | _ => rfl

end Doc

namespace Stmt

/-- The switches of a statement, each before those in its arms. -/
def switches (s : Stmt) : List Switch := s.preorder.filterMap switch?

end Stmt

/-- The switch was built from that of the document, the selector in one scope
and the arms in a later one. -/
def Switch.Passed (doc : Doc.Switch) (s : Switch) : Prop :=
  ∃ scope scope' : Scope, s.selector = ((BuildM.expr doc.selector).run scope).1 ∧
    s.MadeOf ((BuildM.caseList doc.cases).run scope').1

/-- The switches among the statements and those of the document, in order, are so
related. -/
def AllFrom (R : Doc.Switch → Switch → Prop) (docs : List Doc.Switch) (ss : List Stmt) : Prop :=
  List.Forall₂ R docs (ss.filterMap Stmt.switch?)

namespace AllFrom

variable {R : Doc.Switch → Switch → Prop} {docs docs' : List Doc.Switch} {ss ss' : List Stmt}
  {s : Stmt}

theorem nil : AllFrom R [] [] := List.Forall₂.nil

/-- A statement that is no switch changes nothing. -/
theorem skip (hs : s.switch? = none) (h : AllFrom R docs ss) : AllFrom R docs (s :: ss) := by
  unfold AllFrom
  rw [List.filterMap_cons_none hs]
  exact h

theorem append (h : AllFrom R docs ss) (h' : AllFrom R docs' ss') :
    AllFrom R (docs ++ docs') (ss ++ ss') := by
  unfold AllFrom
  rw [List.filterMap_append]
  exact List.rel_append h h'

end AllFrom

/-- The switches among the statements were built from those of the document. -/
abbrev AllPassed (docs : List Doc.Switch) (ss : List Stmt) : Prop := AllFrom Switch.Passed docs ss

/-- The switches that were built, if all is fine in the end, passed their checks. -/
theorem BuildM.passed_follows : Follows False fun s docs ss s' =>
    s.Grows s' ∧ (s'.Fine → AllPassed (docs.flatMap Doc.switches) ss) where
  calm h _ := ⟨h.grows, fun _ => .nil⟩
  append h h' := by
    refine ⟨h.1.trans h'.1, fun hfine => ?_⟩
    rw [List.flatMap_append]
    exact (h.2 (h'.1.fine hfine)).append (h'.2 hfine)
  number h hplain _ _ := ⟨h.1.trans (number_grows _ _), fun hfine =>
    (h.2 ((number_grows _ _).fine hfine)).skip hplain.switch?⟩
  place h _ hmade _ _ := by
    refine ⟨(h.1.trans hmade.grows).trans (place_grows _ _), fun hfine => ?_⟩
    have hend := (place_grows _ _).fine hfine
    have hparts := h.2 (hmade.grows.fine hend)
    rw [List.flatMap_singleton, Doc.switches_eq]
    cases hmade with
    | plain _ hd ht =>
      rw [hd]
      exact hparts.skip ht.switch?
    | «return» => exact hparts.skip rfl
    | switch hselector hwritten _ =>
      -- what was collected from the labels was reported
      subst hwritten
      refine List.Forall₂.cons ⟨_, _, hselector, rfl, ⟨fun d hd => ?_, ?_⟩, rfl⟩ hparts
      · exact hend.noErrors d (Array.mem_append_right _ (List.mem_toArray.mpr hd))
      · exact (breach_orElse_eq_none hend.breach).2

/-- The switches of a unit that loads are those of its document, and each
passed its checks. -/
theorem Script.switches_passed {u : Doc.Unit} {firstStmt : StmtId} {s : Script}
    (hload : load u firstStmt = .ok s) (hbreach : s.breach? = none) :
    List.Forall₂ Switch.Passed (Doc.switches u.body) s.body.switches := by
  have hnoErrors := noErrors_of_load hload
  obtain ⟨rfl, -⟩ := load_eq_ok_iff.mp hload
  have hpassed := (BuildM.unitBody_follows BuildM.passed_follows False.elim
    ⟨(BuildM.locals_declare u _).grows, fun _ => .nil⟩).2 ⟨hnoErrors, hbreach⟩
  rwa [List.flatMap_singleton] at hpassed

end Vigil
