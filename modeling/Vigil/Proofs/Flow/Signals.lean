import Mathlib.Data.Finset.SDiff
import Vigil.Proofs.Exec.Run
import Vigil.Script

/-!
# Vigil.Proofs.Flow.Signals — the flows a statement can report

Which flows a statement can report is told by its syntax alone
(`Stmt.signals`): jumps report their own flow, lists and branches what their
parts do, loops use up `break` and `loop`, and a switch lets only `return`
through. `reported_flow_sound` says that execution keeps to this in every
frame and world, and that a value only ever comes with `return`.

A loop reports what its last round did, or nothing at all when there was none.
So the argument has one lemma per kind of loop, for any property of outcomes
that the body's rounds have, and one step that turns the last round's outcome
into the loop's own.
-/

namespace Vigil

variable {flow : Flow}

/-! ## Signals by syntax -/

namespace Stmt

mutual

/-- The flows a statement can report. -/
def signals : Stmt → Finset Flow
  | .break _ => {.break}
  | .next _ => {.loop}
  | .fallthrough _ => {.fallthrough}
  | .return .. => {.return}
  | .list _ body => insert .next (signalsList body)
  | .cond _ _ thenBody elseBody => signals thenBody ∪ signals elseBody
  | .while _ _ body | .for _ _ _ _ body => insert .next (signals body \ {.break, .loop})
  | .switch _ _ cases _ => insert .next (signalsCases cases ∩ {.return})
  | .bodyList .. | .expr .. | .print .. | .event .. | .add .. | .delete .. | .init .. | .null _
  | .when .. => {.next}

def signalsList : List Stmt → Finset Flow
  | [] => ∅
  | s :: rest => signals s ∪ signalsList rest

def signalsCases : List Case → Finset Flow
  | [] => ∅
  | .mk _ body _ :: rest => signals body ∪ signalsCases rest

end

end Stmt

/-! ## Outcomes -/

namespace Outcome

/-- The outcome reports one of the flows, and a value only with `return`. -/
structure Reports (flows : Finset Flow) (out : Outcome) : Prop where
  flow : out.flow ∈ flows
  value : out.value.isSome → out.flow = .return

variable {flows flows' : Finset Flow} {out : Outcome}

theorem Reports.mono (h : out.Reports flows) (hsub : flows ⊆ flows') : out.Reports flows' :=
  ⟨hsub h.flow, h.value⟩

theorem Reports.ofFlow (h : flow ∈ flows) : (ofFlow flow).Reports flows :=
  ⟨h, nofun⟩

theorem Reports.next (h : .next ∈ flows) : Outcome.next.Reports flows := .ofFlow h

/-- What a loop reports, from what its last round did: its own signals are
used up, and a value is untouched since `return` is. -/
theorem Reports.afterLoop (h : out.Reports (insert .next flows)) :
    out.afterLoop.Reports (insert .next (flows \ {.break, .loop})) := by
  obtain ⟨value, flow⟩ := out
  obtain ⟨hflow, hvalue⟩ := h
  constructor
  · cases flow <;> simp_all [Outcome.afterLoop, Flow.afterLoop]
  · intro hv
    have hreturn : flow = .return := hvalue hv
    simp [Outcome.afterLoop, hreturn, Flow.afterLoop]

/-- What a switch reports, from what its last arm did. -/
theorem Reports.afterSwitch (h : out.Reports (insert .next flows)) :
    out.afterSwitch.Reports (insert .next (flows ∩ {.return})) := by
  obtain ⟨value, flow⟩ := out
  obtain ⟨hflow, hvalue⟩ := h
  constructor
  · cases flow <;> simp_all [Outcome.afterSwitch, Flow.afterSwitch]
  · intro hv
    have hreturn : flow = .return := hvalue hv
    simp [Outcome.afterSwitch, hreturn, Flow.afterSwitch]

end Outcome

/-! ## Computations -/

namespace Exec

variable {α β : Type} {x : Exec α} {P Q : α → Prop}

/-- From every world, the computation yields only what `Q` allows. -/
def Yields (x : Exec α) (Q : α → Prop) : Prop :=
  ∀ w a w', x.runFrom w = (.ok a, w') → Q a

namespace Yields

theorem pure {a : α} (h : Q a) : Yields (pure a) Q := by
  intro w b w' hb
  cases hb
  exact h

theorem throw (s : Stop) : Yields (throw s) Q := by
  intro w a w' ha
  cases ha

theorem fault (e : Fault) : Yields (fault e) Q := .throw _

theorem mono (hx : Yields x P) (h : ∀ a, P a → Q a) : Yields x Q := by
  intro w a w' ha
  exact h a (hx w a w' ha)

/-- A sequence yields what its last part does, on what the first yields. -/
theorem bind {R : β → Prop} {k : α → Exec β} (hx : Yields x P)
    (hk : ∀ a, P a → Yields (k a) R) : Yields (x >>= k) R := by
  intro w b w' hb
  obtain ⟨a, w₁, ha, hb⟩ := bind_ok hb
  exact hk a (hx w a w₁ ha) w₁ b w' hb

/-- A sequence whose first part may yield anything. -/
theorem after {R : β → Prop} {k : α → Exec β} (hk : ∀ a, Yields (k a) R) :
    Yields (x >>= k) R := by
  intro w b w' hb
  obtain ⟨a, w₁, -, hb⟩ := bind_ok hb
  exact hk a w₁ b w' hb

theorem onFault {recover : Fault → Exec α} (hx : Yields x Q)
    (hr : ∀ e, Yields (recover e) Q) : Yields (onFault x recover) Q := by
  intro w a w' ha
  rw [runFrom_onFault] at ha
  rcases hrun : x.runFrom w with ⟨(e | e | _) | b, w₁⟩
  · rw [hrun] at ha
    exact hr e w₁ a w' ha
  · rw [hrun] at ha
    cases ha
  · rw [hrun] at ha
    cases ha
  · rw [hrun] at ha
    cases ha
    exact hx w a w' hrun

end Yields

end Exec

/-! ## Loops and arms -/

namespace Stmt

open Exec

variable {s : Stmt}

section Rounds

variable {Q : Outcome → Prop} {body : Exec Outcome} {last : Outcome}

theorem whileRounds_yields {limit : Option Nat} {test : Exec Value} (hbody : Yields body Q)
    (fuel rounds : Nat) (hlast : Q last) :
    Yields (whileRounds limit test body fuel rounds last) Q := by
  induction fuel generalizing rounds last with
  | zero => exact .throw _
  | succ fuel ih =>
    have hround : ∀ n, Yields (body >>= fun out =>
        if out.flow.stops then pure out else whileRounds limit test body fuel n out) Q := by
      intro n
      refine .bind hbody fun out hout => ?_
      split
      · exact .pure hout
      · exact ih n hout
    unfold whileRounds
    refine .after fun v => ?_
    split
    · exact .pure hlast
    · split
      · split
        · exact .fault _
        · exact hround _
      · exact hround _

theorem tableRounds_yields (r : TableRef) (bind : List Value → Option Value → Exec Unit)
    (hbody : Yields body Q) (keys : List Key) (hlast : Q last) :
    Yields (tableRounds r bind body keys last) Q := by
  induction keys generalizing last with
  | nil => exact .after fun _ => .pure hlast
  | cons k rest ih =>
    have hguarded : Yields (onFault body fun e => do
        modifyTable r Table.leave
        Exec.fault e) Q := .onFault hbody fun e => .after fun _ => .fault e
    rw [tableRounds]
    refine .after fun h => ?_
    dsimp only
    split
    · exact ih hlast
    · refine .after fun index => .after fun _ => .bind hguarded fun out hout => ?_
      split
      · exact .after fun _ => .pure hout
      · exact ih hout

theorem vectorRounds_yields (r : VecRef) (bind : Value → Exec Unit) (hbody : Yields body Q)
    (fuel i : Nat) (hlast : Q last) : Yields (vectorRounds r bind body fuel i last) Q := by
  induction fuel generalizing i last with
  | zero => exact .throw _
  | succ fuel ih =>
    rw [vectorRounds]
    refine .after fun h => ?_
    dsimp only
    split
    · exact .pure hlast
    · split
      · exact ih _ hlast
      · refine .after fun _ => .bind hbody fun out hout => ?_
        split
        · exact .pure hout
        · exact ih _ hout

theorem stringRounds_yields (bind : Value → Exec Unit) (hbody : Yields body Q) (bytes : Bytes)
    (hlast : Q last) : Yields (stringRounds bind body bytes last) Q := by
  induction bytes generalizing last with
  | nil => exact .pure hlast
  | cons b rest ih =>
    rw [stringRounds]
    refine .after fun _ => .bind hbody fun out hout => ?_
    split
    · exact .pure hout
    · exact ih hout

theorem forRounds_yields (fuel : Nat) (f : FrameRef) (vars : List Ident)
    (valueVar : Option Ident) (target : Value) (hbody : Yields body Q) (hnext : Q .next) :
    Yields (forRounds fuel f vars valueVar target body) Q := by
  unfold forRounds
  split
  · exact .after fun _ => .after fun _ => tableRounds_yields _ _ hbody _ hnext
  · exact .after fun _ => vectorRounds_yields _ _ hbody _ _ hnext
  · exact .after fun _ => stringRounds_yields _ hbody _ hnext
  · exact .after fun _ => .fault _

end Rounds

/-! ## Statements -/

theorem exec_yields_of {fuel : Nat} {f : FrameRef} {Q : Outcome → Prop}
    (h : Yields (act fuel f s) Q) : Yields (exec fuel f s) Q := by
  rw [exec_eq]
  exact .after fun _ => h

mutual

theorem act_reports (fuel : Nat) (f : FrameRef) :
    ∀ s : Stmt, Yields (act fuel f s) (Outcome.Reports s.signals)
  | .list i body => by
    rw [act, signals]
    exact execList_reports fuel f body
  | .bodyList i bodies => by
    rw [act, signals]
    exact .after fun _ => .pure (.next (by simp))
  | .expr i e => by
    rw [act, signals]
    exact .after fun _ => .pure (.next (by simp))
  | .print i args => by
    rw [act, signals]
    exact .after fun _ => .after fun _ => .pure (.next (by simp))
  | .event i name args => by
    rw [act, signals]
    exact .after fun _ => .after fun _ => .pure (.next (by simp))
  | .cond i test thenBody elseBody => by
    rw [act, signals]
    have hthen := exec_yields_of (act_reports fuel f thenBody)
    have helse := exec_yields_of (act_reports fuel f elseBody)
    refine .after fun v => ?_
    split
    · exact .after fun _ => helse.mono fun out h => h.mono Finset.subset_union_right
    · exact .after fun _ => hthen.mono fun out h => h.mono Finset.subset_union_left
  | .while i test body => by
    rw [act, signals]
    -- before the first round a loop reports nothing, hence the flows with `next`
    have hbody := (exec_yields_of (act_reports fuel f body)).mono fun out h =>
      h.mono (Finset.subset_insert Flow.next _)
    have hnext := Outcome.Reports.next (Finset.mem_insert_self Flow.next body.signals)
    exact .after fun _ => .bind (whileRounds_yields hbody fuel 0 hnext) fun out hout =>
      .pure hout.afterLoop
  | .for i vars valueVar target body => by
    rw [act, signals]
    have hbody := (exec_yields_of (act_reports fuel f body)).mono fun out h =>
      h.mono (Finset.subset_insert Flow.next _)
    have hnext := Outcome.Reports.next (Finset.mem_insert_self Flow.next body.signals)
    exact .after fun v => .bind (forRounds_yields fuel f vars valueVar v hbody hnext)
      fun out hout => .pure hout.afterLoop
  | .switch i selector cases dispatch => by
    rw [act, signals]
    refine .after fun v => .after fun h => .after fun found => ?_
    split
    split
    · exact .pure (.next (by simp))
    · have hnext := Outcome.Reports.next (Finset.mem_insert_self Flow.next (signalsCases cases))
      exact .bind (execCases_reports fuel f _ _ cases _ (Finset.Subset.refl _) hnext)
        fun out hout => .pure hout.afterSwitch
  | .add i target => by
    rw [act, signals]
    exact .after fun _ => .pure (.next (by simp))
  | .delete i target => by
    rw [act, signals]
    exact .after fun _ => .pure (.next (by simp))
  | .next i | .break i | .fallthrough i | .return i none => by
    rw [act, signals]
    exact .pure (.ofFlow (by simp))
  | .return i (some e) => by
    rw [act, signals]
    exact .after fun v => .pure ⟨by simp, fun _ => rfl⟩
  | .init i idents => by
    rw [act, signals]
    exact .after fun _ => .pure (.next (by simp))
  | .null i => by
    rw [act, signals]
    exact .pure (.next (by simp))
  | .when i test body timeout timeoutBody isReturn => by
    rw [act, signals]
    exact .after fun _ => .pure (.next (by simp))

theorem execList_reports (fuel : Nat) (f : FrameRef) : ∀ ss : List Stmt,
    Yields (execList fuel f ss) (Outcome.Reports (insert .next (signalsList ss)))
  | [] => by
    rw [execList]
    exact .pure (.next (by simp))
  | s :: rest => by
    rw [execList, signalsList]
    have hhead := exec_yields_of (act_reports fuel f s)
    have hrest := execList_reports fuel f rest
    refine .after fun _ => .bind hhead fun out hout => .after fun delayed => ?_
    split
    · refine .pure (hout.mono ?_)
      intro flow hflow
      simp [hflow]
    · refine hrest.mono fun out hout => hout.mono ?_
      exact Finset.insert_subset_insert _ Finset.subset_union_right

/-- The arms run are among all arms, whichever is the first. -/
theorem execCases_reports (fuel : Nat) (f : FrameRef) (bind : Exec Unit) {flows : Finset Flow} :
    ∀ (skip : Nat) (cases : List Case) (last : Outcome), signalsCases cases ⊆ flows →
      last.Reports (insert .next flows) →
        Yields (execCases fuel f bind skip cases last) (Outcome.Reports (insert .next flows))
  | _, [], last, _, hlast => by
    rw [execCases]
    exact .pure hlast
  | skip + 1, .mk _ body _ :: rest, last, hsub, hlast => by
    rw [execCases]
    rw [signalsCases] at hsub
    exact execCases_reports fuel f bind skip rest last
      (Finset.Subset.trans Finset.subset_union_right hsub) hlast
  | 0, .mk _ body _ :: rest, last, hsub, hlast => by
    rw [execCases]
    rw [signalsCases] at hsub
    have hbody := exec_yields_of (act_reports fuel f body)
    refine .after fun _ => .bind hbody fun out hout => ?_
    have hout' : out.Reports (insert .next flows) := by
      refine hout.mono fun flow hflow => ?_
      have hmem := hsub (Finset.mem_union_left _ hflow)
      exact Finset.mem_insert_of_mem hmem
    split
    · exact .pure hout'
    · exact execCases_reports fuel f bind 0 rest out
        (Finset.Subset.trans Finset.subset_union_right hsub) hout'

end

/-- A loop's own signals are not among those it can report. -/
theorem own_not_mem_signals_of_loop (hs : s.tag = .while ∨ s.tag = .for) :
    Flow.break ∉ s.signals ∧ Flow.loop ∉ s.signals := by
  cases s with
  | «while» i test body => simp [signals]
  | «for» i vars valueVar target body => simp [signals]
  | _ => rcases hs with hs | hs <;> cases hs

/-- A switch goes on or returns. -/
theorem eq_next_or_return_of_switch (hs : s.tag = .switch) (h : flow ∈ s.signals) :
    flow = .next ∨ flow = .return := by
  cases s with
  | switch i selector cases dispatch =>
    rw [signals, Finset.mem_insert, Finset.mem_inter, Finset.mem_singleton] at h
    exact h.imp_right And.right
  | _ => cases hs

/-- What a statement reports is among its signals and a value comes only with
`return`; so `break` and `loop` stay in the loop that owns them, and a switch
goes on or returns. -/
theorem reported_flow_sound {fuel : Nat} {f : FrameRef} {s : Stmt} {w w' : World} {out : Outcome}
    (h : (s.exec fuel f).runFrom w = (.ok out, w')) :
    out.flow ∈ s.signals ∧ (out.value.isSome → out.flow = .return) ∧
      (s.tag = .while ∨ s.tag = .for → out.flow ≠ .break ∧ out.flow ≠ .loop) ∧
      (s.tag = .switch → out.flow = .next ∨ out.flow = .return) := by
  obtain ⟨hflow, hvalue⟩ := exec_yields_of (act_reports fuel f s) w out w' h
  refine ⟨hflow, hvalue, fun hs => ?_, fun hs => eq_next_or_return_of_switch hs hflow⟩
  obtain ⟨hbreak, hloop⟩ := own_not_mem_signals_of_loop hs
  constructor
  · intro heq
    exact hbreak (heq ▸ hflow)
  · intro heq
    exact hloop (heq ▸ hflow)

/-- A loop over two bytes: the first raises `next`, the second breaks. -/
def jumpingLoop : Doc.Unit where
  name := "u"
  kind := .toplevel
  locals := []
  body := .for [⟨"c", none, .unknown⟩] none (.const (.str "ab"))
    (.list [.cond (.binary .eq (.name "c") (.const (.str "a"))) .next none,
      .break])

/-- Its body reports both signals of the loop, and the loop neither. -/
theorem reported_flow_sound_of_jumps :
    ∃ (script : Script) (w w' : World) (out : Outcome),
      Script.load jumpingLoop 0 = .ok script ∧ script.body.tag = .for ∧
      (script.body.exec 1 ⟨0⟩).runFrom w = (.ok out, w') ∧
      out.flow ∈ script.body.signals ∧ out.flow ≠ .break ∧ out.flow ≠ .loop := by
  let script := Script.build jumpingLoop 0
  let w := ((World.start default default).addFrame 1 none).2
  have hload : script.hasErrors = false := by decide +kernel
  have htag : script.body.tag = .for := by decide +kernel
  have hok : ((script.body.exec 1 ⟨0⟩).runFrom w).1 = .ok .next := by decide +kernel
  have hrun : (script.body.exec 1 ⟨0⟩).runFrom w =
      (.ok .next, (script.body.exec 1 ⟨0⟩).leaves w) := Prod.ext hok rfl
  have hsound := reported_flow_sound hrun
  exact ⟨script, w, _, _, Script.load_eq_ok_iff.mpr ⟨rfl, hload⟩, htag, hrun, hsound.1,
    hsound.2.2.1 (.inr htag)⟩

end Stmt

end Vigil
