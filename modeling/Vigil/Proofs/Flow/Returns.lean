import Vigil.Proofs.Build.Numbers
import Vigil.Proofs.Deferral.Reentry
import Vigil.Proofs.Flow.Traces

/-!
# Vigil.Proofs.Flow.Returns — a `return` ends the run

A statement starts, and then the statements start that its parts do, one part
after the other (`Stmt.Unrolls`). A part that fails or returns is the last of
them, and its answer is the answer of the whole; only the iterations of tables
around it are given back. So a `return`, however deep it stands, is the last
statement to start, and the run answers what it does (`Stmt.return_ends`).
Handler bodies are the one exception, since each of them runs whatever the
others did.
-/

namespace Vigil

open Exec (leaves runFrom_bind)
open World (Logged)

variable {i : StmtInfo} {value : Option Expr}

/-! ## What a run starts -/

namespace Exec

variable {α : Type} {f : FrameRef} {x : Exec α} {w : World}

/-- What a run enters into the journal is its log. -/
theorem Moves.logged (hx : Moves f x) (w : World) : Logged w (x.leaves w) (x.log w) := by
  have hsuffix : ∀ w', Relation.ReflTransGen (World.Step f) w w' → w.journal <:+ w'.journal := by
    intro w' hsteps
    induction hsteps with
    | refl => exact List.suffix_rfl
    | tail _ hstep ih => exact ih.trans hstep.journal
  obtain ⟨new, hnew⟩ := hsuffix _ (hx w)
  have hlog : x.log w = new.reverse := log_eq (by rw [List.reverse_reverse, hnew])
  unfold Logged
  rw [hlog, List.reverse_reverse, hnew]

end Exec

namespace Sequence

variable {σ ι : Type} {q : Sequence σ ι} {p : σ} {w w' : World} {ρs : List (Round ι)}
  {ending : Conclusion} {f : FrameRef}

/-- A sequence starts what its parts do. -/
theorem Trace.logged (h : q.Trace p w ρs ending w')
    (hoffer : ∀ p, Exec.Keeps (World.Calm f) (q.offer p))
    (hpart : ∀ x, Exec.Moves f (q.part x)) :
    Logged w w' (ρs.flatMap fun ρ => (q.part ρ.visited).log ρ.entry) := by
  have hcalm : ∀ {p w a w₁}, (q.offer p).runFrom w = (a, w₁) → w₁.journal = w.journal := by
    intro p w a w₁ hrun
    have hj := (hoffer p w).1
    rwa [leaves, hrun] at hj
  have hround : ∀ ρ : Round ι, (q.part ρ.visited).runFrom ρ.entry = (ρ.answer, ρ.exit) →
      Logged ρ.entry ρ.exit ((q.part ρ.visited).log ρ.entry) := by
    intro ρ hrun
    have hlog := (hpart ρ.visited).logged ρ.entry
    rwa [leaves, hrun] at hlog
  induction h with
  | ranOut hrun | brokeOff hrun => exact .nil (hcalm hrun)
  | stopped hrun hpart _ =>
    rw [List.flatMap_singleton]
    exact (Logged.nil (hcalm hrun)).append (hround _ hpart)
  | goesOn hrun hpart _ _ ih =>
    rw [List.flatMap_cons]
    exact ((Logged.nil (hcalm hrun)).append (hround _ hpart)).append ih

/-- The part failed, or it returned. -/
def Round.Leaves (ρ : Round ι) : Prop := ∀ out, ρ.answer = .ok out → out.flow = .return

end Sequence

namespace World

theorem journal_release (rs : List TableRef) (w : World) : (w.release rs).journal = w.journal := by
  induction rs generalizing w with
  | nil => rfl
  | cons r rs ih => exact ih _

end World

namespace Stmt

open Sequence (Trace Round Conclusion)

variable {fuel : Nat} {f : FrameRef} {s t : Stmt} {w w₁ : World} {out : Outcome} {v : Value}
  {ending : Conclusion} {e : Expr}

/-- The executions of the parts of a statement, and what they have to do with the
execution of the statement. -/
structure Unrolls (fuel : Nat) (f : FrameRef) (w : World) (s : Stmt) (ρs : List (Round Stmt)) :
    Prop where
  performs : ∀ ρ ∈ ρs, s.Performs fuel f w ρ.visited ρ.entry ∧
    (ρ.visited.exec fuel f).runFrom ρ.entry = (ρ.answer, ρ.exit)
  starts : started ((s.exec fuel f).log w) =
    s.id :: ρs.flatMap fun ρ => started ((ρ.visited.exec fuel f).log ρ.entry)
  /-- A part that fails or returns ends the statement in the same way. -/
  quits : ∀ {before ρ after}, ρs = before ++ ρ :: after → ρ.Leaves →
    after = [] ∧ ∃ rs, (s.exec fuel f).runFrom w = (ρ.answer, ρ.exit.release rs)

theorem runFrom_exec (fuel : Nat) (f : FrameRef) (s : Stmt) (w : World) :
    (s.exec fuel f).runFrom w = (s.act fuel f).runFrom ((Exec.visit s.info).leaves w) := by
  rw [exec_eq]
  exact Exec.runFrom_bind_of_ok rfl

/-- Up to the first part only the start of the statement is noted. -/
theorem logged_visit (s : Stmt) (w : World) :
    Logged w ((Exec.visit s.info).leaves w) [.start s.id w.now] := rfl

/-- A statement without parts starts only itself. -/
theorem Unrolls.of_logged {log : List Entry}
    (h : Logged ((Exec.visit s.info).leaves w) ((s.exec fuel f).leaves w) log)
    (hlog : started log = []) : s.Unrolls fuel f w [] where
  performs ρ hρ := absurd hρ List.not_mem_nil
  starts := by
    have hall := (logged_visit s w).append h
    rw [Exec.log_eq hall, World.started_append, hlog, List.append_nil]
    rfl
  quits h _ := absurd h (by simp)

theorem Unrolls.of_journal
    (h : ((s.exec fuel f).leaves w).journal = ((Exec.visit s.info).leaves w).journal) :
    s.Unrolls fuel f w [] := by
  have hlogged : Logged ((Exec.visit s.info).leaves w) ((s.exec fuel f).leaves w) [] := h
  exact .of_logged hlogged rfl

theorem Unrolls.of_calm (h : Exec.Calm f (s.act fuel f)) : s.Unrolls fuel f w [] := by
  refine .of_journal ?_
  rw [exec_eq]
  exact (h _).1

/-- A statement that goes through a sequence unrolls to its trace. -/
theorem Unrolls.of_trace {σ ι : Type} {q : Sequence σ ι} {p : σ} {w₁ w' : World}
    {ρs : List (Round ι)} (part : ι → Stmt) (g : Outcome → Outcome)
    (hoffer : ∀ p, Exec.Keeps (World.Calm f) (q.offer p))
    (hpart : ∀ x, q.part x = (part x).exec fuel f)
    (hon : ∀ out w, q.goesOn out w = true → out.flow ≠ .return)
    (hg : ∀ out, out.flow = .return → g out = out)
    (hw₁ : w₁.journal = ((Exec.visit s.info).leaves w).journal) (h : q.Trace p w₁ ρs ending w')
    (hrun : (s.exec fuel f).runFrom w = ended g (q.result .next ρs w' ending))
    (hperforms : ∀ ρ ∈ ρs, s.Performs fuel f w (part ρ.visited) ρ.entry) :
    s.Unrolls fuel f w (ρs.map (Round.relabel part)) where
  performs ρ hρ := by
    obtain ⟨ρ', hρ', rfl⟩ := List.mem_map.mp hρ
    have hrun' := h.runs ρ' hρ'
    rw [hpart] at hrun'
    exact ⟨hperforms ρ' hρ', hrun'⟩
  starts := by
    have hmoves : ∀ x, Exec.Moves f (q.part x) := fun x => hpart x ▸ exec_moves fuel f _
    have htrace := h.logged hoffer hmoves
    -- what is given back at the end is no entry of the journal
    have hend : ((s.exec fuel f).leaves w).journal = w'.journal := by
      unfold Exec.leaves
      rw [hrun]
      cases ending with
      | brokeOff => rfl
      | ranOut | stopped =>
        simp only [ended, Sequence.result, Sequence.finish]
        split
        · exact World.journal_release _ _
        · rfl
    have hstart : Logged w w₁ [.start s.id w.now] := hw₁
    have hall : Logged w ((s.exec fuel f).leaves w) _ :=
      (hstart.append htrace).append (.nil hend)
    rw [Exec.log_eq hall, List.append_nil, World.started_append, List.flatMap_map]
    simp only [started, List.filterMap_flatMap, hpart]
    rfl
  quits {before ρ after} hρs hρ := by
    obtain ⟨before', rest, rfl, rfl, hrest⟩ := List.map_eq_append_iff.mp hρs
    obtain ⟨ρ', after', rfl, rfl, rfl⟩ := List.map_eq_cons_iff.mp hrest
    have hstop : ¬ q.GoesOn ρ' := by
      rintro ⟨out, hout, hgoes⟩
      exact hon _ _ hgoes (hρ out hout)
    obtain ⟨rfl, rfl, rfl⟩ := h.last_of_not_goesOn hstop
    have hanswer : Sequence.lastAnswer .next (before' ++ [ρ']) = ρ'.answer := by
      rw [Sequence.lastAnswer, List.getLast?_append, List.getLast?_singleton]
      rfl
    have hmap : ρ'.answer.map g = ρ'.answer := by
      cases ha : ρ'.answer with
      | error => rfl
      | ok out => exact congrArg Except.ok (hg out (hρ out ha))
    refine ⟨rfl, if Exec.cameBack ρ'.answer then q.held else [], ?_⟩
    rw [hrun, ended, Sequence.result, Sequence.finish, hanswer, hmap]
    change (ρ'.answer, _) = (ρ'.answer, ρ'.exit.release _)
    split <;> rfl

theorem afterLoop_of_return (h : out.flow = .return) : out.afterLoop = out := by
  obtain ⟨value, flow⟩ := out
  cases h
  rfl

theorem afterSwitch_of_return (h : out.flow = .return) : out.afterSwitch = out := by
  obtain ⟨value, flow⟩ := out
  cases h
  rfl

/-- No round comes after one that returns. -/
theorem flow_ne_return_of_not_stops (h : (!out.flow.stops) = true) : out.flow ≠ .return := by
  intro hreturn
  rw [hreturn] at h
  cases h

theorem journal_eval {a : Except Stop Value} (h : (e.eval f).runFrom w = (a, w₁)) :
    w₁.journal = w.journal := by
  have hj := (Exec.Calm.of_local (e.eval_local f) w).1
  rwa [leaves, h] at hj

theorem ended_self (r : Except Stop Outcome × World) : ended (fun out => out) r = r := by
  obtain ⟨_ | out, w⟩ := r <;> rfl

/-- A loop unrolls to its rounds. -/
theorem Unrolls.of_loop {σ ι : Type} {offer : σ → Exec (Option (ι × σ))} {held : List TableRef}
    {body : Stmt} {p : σ} {w' : World} {ρs : List (Round ι)}
    (hoffer : ∀ p, Exec.Keeps (World.Calm f) (offer p))
    (hw₁ : w₁.journal = ((Exec.visit s.info).leaves w).journal)
    (h : (loopSequence offer (body.exec fuel f) held).Trace p w₁ ρs ending w')
    (hrun : (s.exec fuel f).runFrom w = ended Outcome.afterLoop
      ((loopSequence offer (body.exec fuel f) held).result .next ρs w' ending))
    (hperforms : ∀ ρ ∈ ρs, s.Performs fuel f w body ρ.entry) :
    s.Unrolls fuel f w (ρs.map (Round.relabel fun _ => body)) :=
  .of_trace (fun _ => body) Outcome.afterLoop hoffer (fun _ => rfl)
    (fun _ _ => flow_ne_return_of_not_stops) (fun _ => afterLoop_of_return) hw₁ h hrun hperforms

section

variable {i : StmtInfo} {valueVar : Option Ident} {target : Expr} {body : Stmt}

/-- A loop over a value unrolls to its rounds. -/
theorem exists_unrolls_for {vars : List Ident}
    (htarget : (target.eval f).runFrom ((Exec.visit i).leaves w) = (.ok v, w₁)) :
    ∃ ρs, (Stmt.for i vars valueVar target body).Unrolls fuel f w ρs := by
  have hw₁ := journal_eval htarget
  have hwrite : ∀ (var : Ident) v, Exec.Keeps (World.Calm f) (Exec.writeSlot f var.slot v) :=
    fun _ _ => Exec.Calm.of_local (.writeSlot _ _)
  -- a value that is not iterated over stops the loop before its first round
  have hnone : ∀ stop, (forRounds fuel f vars valueVar v (body.exec fuel f)).runFrom w₁ =
      (.error stop, w₁) → ∃ ρs, (Stmt.for i vars valueVar target body).Unrolls fuel f w ρs := by
    intro stop hstop
    refine ⟨[], .of_journal ?_⟩
    rw [leaves, runFrom_exec_for valueVar body fuel vars htarget, hstop]
    exact hw₁
  cases v with
  | table r =>
    obtain ⟨ρs, ending, w', h, hrun⟩ := exists_table_trace valueVar body fuel vars htarget
    have hentered : ((Exec.modifyTable r Table.enter).leaves w₁).journal = _ := hw₁
    have hbind : ∀ index v, Exec.Keeps (World.Calm f) (bindEntry f vars valueVar index v) :=
      fun index v => Exec.Calm.of_local (bindEntry_local vars valueVar index v)
    exact ⟨_, .of_loop (tableOffer_keeps r hbind) hentered h hrun
      fun ρ hρ => .for htarget (.table h hρ)⟩
  | vector r =>
    rcases vars with _ | ⟨var, _ | ⟨_, _⟩⟩
    · exact hnone _ rfl
    · obtain ⟨ρs, ending, w', h, hrun⟩ := exists_vector_trace valueVar body fuel var htarget
      have hoffer : ∀ p : Nat × Nat, Exec.Keeps (World.Calm f) (vectorOffer r
          (fun v => Exec.writeSlot f var.slot (v.coerce var.ty)) p.1 p.2) := fun p =>
        vectorOffer_keeps r (fun v => hwrite var _) p.1 p.2
      exact ⟨_, .of_loop hoffer hw₁ h hrun fun ρ hρ => .for htarget (.vector h hρ)⟩
    · exact hnone _ rfl
  | str bytes =>
    rcases vars with _ | ⟨var, _ | ⟨_, _⟩⟩
    · exact hnone _ rfl
    · obtain ⟨ρs, ending, w', h, hrun⟩ := exists_string_trace valueVar body fuel var htarget
      exact ⟨_, .of_loop (stringOffer_keeps (hwrite var)) hw₁ h hrun
        fun ρ hρ => .for htarget (.string h hρ)⟩
    · exact hnone _ rfl
  | _ => exact hnone _ rfl

end

/-- One of two branches unrolls to the branch taken. -/
theorem exists_unrolls_cond {test : Expr} {thenBody elseBody : Stmt}
    (htest : (test.eval f).runFrom ((Exec.visit i).leaves w) = (.ok v, w₁)) :
    ∃ ρs, (Stmt.cond i test thenBody elseBody).Unrolls fuel f w ρs := by
  obtain ⟨branch, hbranch⟩ : ∃ branch, branch = if v.isZero then elseBody else thenBody := ⟨_, rfl⟩
  obtain ⟨w₂, hw₂⟩ : ∃ w₂, w₂ = (Exec.setNext f branch.id).leaves w₁ := ⟨_, rfl⟩
  have hrun : ((Stmt.cond i test thenBody elseBody).exec fuel f).runFrom w =
      (branch.exec fuel f).runFrom w₂ := by
    rw [exec, hw₂, hbranch]
    refine (Exec.runFrom_bind_of_ok rfl).trans ((Exec.runFrom_bind_of_ok htest).trans ?_)
    cases v.isZero <;> rfl
  refine ⟨[⟨branch, w₂, ((branch.exec fuel f).runFrom w₂).1, (branch.exec fuel f).leaves w₂⟩], ?_⟩
  constructor
  · refine List.forall_mem_singleton.mpr ⟨?_, rfl⟩
    have hperforms : (Stmt.cond i test thenBody elseBody).Performs fuel f w branch _ :=
      .cond htest hbranch
    rwa [← hw₂] at hperforms
  · have hnoted : w₂.journal = w₁.journal := by
      rw [hw₂]
      rfl
    have hstart : Logged w w₂ [.start i.id w.now] := hnoted.trans (journal_eval htest)
    have hall := hstart.append ((exec_moves fuel f branch).logged w₂)
    have hleaves : (branch.exec fuel f).leaves w₂ =
      ((Stmt.cond i test thenBody elseBody).exec fuel f).leaves w := by rw [leaves, leaves, hrun]
    rw [hleaves] at hall
    rw [Exec.log_eq hall, World.started_append, List.flatMap_singleton]
    rfl
  · intro before ρ after hρs hρ
    obtain ⟨rfl, hρs⟩ | ⟨before', rfl, hρs⟩ := List.cons_eq_append_iff.mp hρs
    · cases hρs
      exact ⟨rfl, [], hrun⟩
    · simp at hρs

/-- An arm is selected, and the switch unrolls to the arms from there on. -/
theorem exists_unrolls_switch {selector : Expr} {cases : List Case} {dispatch : Dispatch}
    (hselector : (selector.eval f).runFrom ((Exec.visit i).leaves w) = (.ok v, w₁)) :
    ∃ ρs, (Stmt.switch i selector cases dispatch).Unrolls fuel f w ρs := by
  have hw₁ := journal_eval hselector
  -- without an arm the switch is over where the selector left off
  have hunrolls : ∀ answer, ((Stmt.switch i selector cases dispatch).exec fuel f).runFrom w =
      (answer, w₁) → ∃ ρs, (Stmt.switch i selector cases dispatch).Unrolls fuel f w ρs := by
    intro answer hrun
    refine ⟨[], .of_journal ?_⟩
    rw [leaves, hrun]
    exact hw₁
  rcases hfind : dispatch.find w₁.heap selector.ty v with a | ⟨_ | arm, binding⟩
  · refine hunrolls (.error (.abort a)) ?_
    rw [exec]
    refine (Exec.runFrom_bind_of_ok rfl).trans ((Exec.runFrom_bind_of_ok hselector).trans
      ((Exec.runFrom_bind_of_ok rfl).trans ?_))
    rw [hfind]
    rfl
  · refine hunrolls (.ok .next) ?_
    rw [exec]
    refine (Exec.runFrom_bind_of_ok rfl).trans ((Exec.runFrom_bind_of_ok hselector).trans
      ((Exec.runFrom_bind_of_ok rfl).trans ?_))
    rw [hfind]
    rfl
  · obtain ⟨ρs, ending, w', h, hrun⟩ := exists_arm_trace fuel cases hselector hfind
    exact ⟨_, .of_trace Case.body Outcome.afterSwitch
      (armOffer_keeps (Exec.Calm.of_local (bindCase_local v binding))) (fun _ => rfl)
      (fun _ _ => flow_ne_return_of_not_stops) (fun _ => afterSwitch_of_return) hw₁ h hrun
      fun ρ hρ => .switch hselector hfind h hρ⟩

/-- A statement whose first expression fails does no more. -/
theorem Unrolls.of_eval_error {k : Value → Exec Outcome} {stop : Stop}
    (hact : s.act fuel f = e.eval f >>= k)
    (h : (e.eval f).runFrom ((Exec.visit s.info).leaves w) = (.error stop, w₁)) :
    s.Unrolls fuel f w [] := by
  refine .of_journal ?_
  rw [leaves, runFrom_exec, hact, Exec.runFrom_bind_of_error h]
  exact journal_eval h

/-- To wait for a condition starts nothing. -/
theorem unrolls_when (i : StmtInfo) (test : Expr) (body : Stmt) (timeout : Option Expr)
    (timeoutBody : Option Stmt) (isReturn : Bool) :
    (Stmt.when i test body timeout timeoutBody isReturn).Unrolls fuel f w [] := by
  have hrun := runFrom_exec fuel f (.when i test body timeout timeoutBody isReturn) w
  rw [act, install, bind_assoc] at hrun
  have hcalm : Exec.Calm f (deadline f timeout) := deadline_calm timeout
  rcases hd : (deadline f timeout).runFrom ((Exec.visit i).leaves w) with ⟨stop | limit, w₁⟩
  all_goals
    have hw₁ : w₁.journal = ((Exec.visit i).leaves w).journal := by
      have hjournal := (hcalm ((Exec.visit i).leaves w)).1
      rwa [leaves, hd] at hjournal
  · refine .of_journal ?_
    rw [leaves, hrun.trans (Exec.runFrom_bind_of_error hd)]
    exact hw₁
  · have hleaves : ((Stmt.when i test body timeout timeoutBody isReturn).exec fuel f).leaves w =
        w₁.install ⟨test, body, timeoutBody, f⟩ limit isReturn i.span := by
      rw [leaves, hrun.trans (Exec.runFrom_bind_of_ok hd)]
      rfl
    -- only a deferral is noted
    have hlogged : Logged ((Exec.visit i).leaves w)
        (w₁.install ⟨test, body, timeoutBody, f⟩ limit isReturn i.span)
        (if isReturn then [.defer f w₁.nextTrigger] else []) := by
      unfold Logged
      rw [World.install_eq, hw₁]
      cases isReturn <;> rfl
    rw [← hleaves] at hlogged
    refine .of_logged hlogged ?_
    cases isReturn <;> rfl

/-- Other statements without parts evaluate expressions, print and raise events. -/
theorem act_calm (hparts : s.parts = []) (htag : s.tag ∉ [.list, .bodyList, .switch, .when]) :
    Exec.Calm f (s.act fuel f) := by
  cases s with
  | list | bodyList | switch | «when» => simp [tag] at htag
  | cond | «while» | «for» => cases hparts
  | expr i e => exact .of_local (.bind (e.eval_local f) fun _ => .pure _)
  | print i args =>
    exact .bind (.of_local (Expr.evalList_local f args)) fun _ =>
      .bind (printLine_calm _) fun _ => .pure _
  | event i name args =>
    exact .bind (.of_local (Expr.evalList_local f args)) fun _ =>
      .bind (raise_calm _ _) fun _ => .pure _
  | add i target => exact .of_local (.bind (target.addTo_local f) fun _ => .pure _)
  | delete i target => exact .of_local (.bind (target.deleteFrom_local f) fun _ => .pure _)
  | init i idents => exact .of_local (.bind (giveFresh_local idents) fun _ => .pure _)
  | «return» i value =>
    cases value with
    | none => exact .pure _
    | some e => exact .of_local (.bind (e.eval_local f) fun _ => .pure _)
  | next | «break» | fallthrough | null => exact .pure _

/-- Every statement that is not a list of handler bodies unrolls. -/
theorem exists_unrolls (fuel : Nat) (f : FrameRef) (w : World) (hs : s.tag ≠ .bodyList) :
    ∃ ρs, s.Unrolls fuel f w ρs := by
  cases s with
  | list i ss =>
    obtain ⟨ρs, ending, w', h, hrun⟩ := exists_list_trace fuel f i ss w
    have hnext : ∀ s, Exec.Keeps (World.Calm f) (Exec.setNext f s) := Exec.Calm.setNext
    refine ⟨_, .of_trace (fun s => s) (fun out => out) (childOffer_keeps hnext) (fun _ => rfl)
      (fun out w hon => ?_) (fun _ _ => rfl) rfl h ?_ fun ρ hρ => .list h hρ⟩
    · rw [listSequence_goesOn hon]
      nofun
    · rw [hrun, ended_self]
  | bodyList => exact absurd rfl hs
  | cond i test thenBody elseBody =>
    rcases htest : (test.eval f).runFrom ((Exec.visit i).leaves w) with ⟨stop | v, w₁⟩
    · exact ⟨[], .of_eval_error rfl htest⟩
    · exact exists_unrolls_cond htest
  | «while» i test body =>
    obtain ⟨ρs, ending, w', h, hrun⟩ := exists_while_trace fuel f i test body w
    exact ⟨_, .of_loop (whileOffer_keeps (Exec.Calm.of_local (test.eval_local f))) rfl h hrun
      fun ρ hρ => .while h hρ⟩
  | «for» i vars valueVar target body =>
    rcases htarget : (target.eval f).runFrom ((Exec.visit i).leaves w) with ⟨stop | v, w₁⟩
    · exact ⟨[], .of_eval_error rfl htarget⟩
    · exact exists_unrolls_for htarget
  | switch i selector cases dispatch =>
    rcases hselector : (selector.eval f).runFrom ((Exec.visit i).leaves w) with ⟨stop | v, w₁⟩
    · exact ⟨[], .of_eval_error rfl hselector⟩
    · exact exists_unrolls_switch hselector
  | «when» i test body timeout timeoutBody isReturn =>
    exact ⟨[], unrolls_when i test body timeout timeoutBody isReturn⟩
  | _ => exact ⟨[], .of_calm (act_calm rfl (by simp [tag]))⟩

/-! ## Returns -/

/-- Only statements at or below the one executed start. -/
theorem started_subset (fuel : Nat) (f : FrameRef) (s : Stmt) (w : World)
    (hs : ∀ t ∈ s.preorder, t.tag ≠ .bodyList) :
    started ((s.exec fuel f).log w) ⊆ numbers s.preorder := by
  induction s using tree_induction generalizing w with
  | h s ih =>
    obtain ⟨ρs, hρs⟩ := exists_unrolls fuel f w (hs s s.self_mem_preorder)
    rw [hρs.starts]
    refine List.cons_subset.mpr ⟨List.mem_map_of_mem s.self_mem_preorder, ?_⟩
    intro id hid
    obtain ⟨ρ, hρ, hid⟩ := List.mem_flatMap.mp hid
    have hpart := (hρs.performs ρ hρ).1
    have hbelow := ih ρ.visited (s.parts_subset_children hpart.mem_parts) ρ.entry
      fun t ht => hs t (hpart.preorder_subset ht)
    exact numbers_subset hpart.preorder_subset (hbelow hid)

/-- What a `return` answers: the value of its expression, if there is one, or
the error that evaluating it raises. -/
def returned (f : FrameRef) (value : Option Expr) (w : World) : Except Stop Outcome :=
  match value with
  | none => .ok ⟨none, .return⟩
  | some e => ((e.eval f).runFrom w).1.map fun v => ⟨some v, .return⟩

theorem answer_return (fuel : Nat) (f : FrameRef) (i : StmtInfo) (value : Option Expr) (w : World) :
    (((Stmt.return i value).exec fuel f).runFrom w).1 =
      returned f value ((Exec.visit i).leaves w) := by
  rw [runFrom_exec]
  cases value with
  | none => rfl
  | some e =>
    rw [act, Exec.runFrom_bind_pure]
    rfl

/-- A `return` that is answered is one. -/
theorem flow_of_returned (h : returned f value w = .ok out) : out.flow = .return := by
  unfold returned at h
  split at h
  · cases h
    rfl
  · cases he : ((Expr.eval f _).runFrom w).1 with
    | error => rw [he] at h; cases h
    | ok v =>
      rw [he] at h
      cases h
      rfl

end Stmt

/-- Where an element of some lists put together stands. -/
theorem exists_of_flatMap_eq {α β : Type} {g : α → List β} {x : β} {l : List α}
    {before after : List β} (h : l.flatMap g = before ++ x :: after) :
    ∃ l₁ a l₂ before' after', l = l₁ ++ a :: l₂ ∧ g a = before' ++ x :: after' ∧
      after = after' ++ l₂.flatMap g := by
  induction l generalizing before with
  | nil => simp at h
  | cons a l ih =>
    rw [List.flatMap_cons] at h
    rcases List.append_eq_append_iff.mp h with ⟨as, rfl, has⟩ | ⟨bs, hbs, hrest⟩
    · obtain ⟨l₁, b, l₂, before', after', rfl, hb⟩ := ih has
      exact ⟨a :: l₁, b, l₂, before', after', rfl, hb⟩
    · cases bs with
      | nil =>
        have hnil : l.flatMap g = [] ++ x :: after := hrest.symm
        obtain ⟨l₁, b, l₂, before', after', rfl, hb⟩ := ih hnil
        exact ⟨a :: l₁, b, l₂, before', after', rfl, hb⟩
      | cons y bs =>
        rw [List.cons_append] at hrest
        cases hrest
        exact ⟨[], a, l, before, bs, rfl, hbs, rfl⟩

namespace Stmt

variable {fuel : Nat} {f : FrameRef} {s : Stmt} {w : World}

/-- A `return` is the last statement to start, and its answer is that of the
whole. -/
theorem return_ends (hs : ∀ t ∈ s.preorder, t.tag ≠ .bodyList) (hdistinct : Distinct s.preorder)
    (hreturn : .return i value ∈ s.preorder) {before after : List StmtId}
    (hstarts : started ((s.exec fuel f).log w) = before ++ i.id :: after) :
    after = [] ∧ ∃ w₁ rs, s.Reaches fuel f w (.return i value) w₁ ∧
      (s.exec fuel f).runFrom w = (returned f value ((Exec.visit i).leaves w₁),
        (((Stmt.return i value).exec fuel f).leaves w₁).release rs) := by
  induction s using tree_induction generalizing w before after with
  | h s ih =>
    obtain ⟨ρs, hρs⟩ := exists_unrolls fuel f w (hs s s.self_mem_preorder)
    rw [hρs.starts] at hstarts
    rw [preorder_eq] at hreturn
    rcases List.mem_cons.mp hreturn with hself | hbelow
    · -- the statement is the `return`, which has no parts
      have hnone : ρs = [] := by
        refine List.eq_nil_iff_forall_not_mem.mpr fun ρ hρ => ?_
        have hpart := (hρs.performs ρ hρ).1.mem_parts
        rw [← hself] at hpart
        cases hpart
      have hlength := congrArg List.length hstarts
      simp only [hnone, List.flatMap_nil, List.length_append, List.length_cons, List.length_nil]
        at hlength
      subst hself
      refine ⟨List.eq_nil_of_length_eq_zero (by omega), w, [], .self, ?_⟩
      exact Prod.ext (answer_return fuel f i value w) rfl
    · -- it starts in one of the parts
      have hne : s.id ≠ i.id := fun hid =>
        hdistinct.root (hid ▸ List.mem_map_of_mem hbelow)
      cases before with
      | nil => exact absurd (List.cons.inj hstarts).1 hne
      | cons j before =>
        have hparts := (List.cons.inj hstarts).2
        obtain ⟨ρs₁, ρ, ρs₂, before', after', rfl, hρ, rfl⟩ := exists_of_flatMap_eq hparts
        obtain ⟨hperforms, hrun⟩ := hρs.performs ρ (by simp)
        have hsub := hperforms.preorder_subset
        have hbodies : ∀ t ∈ ρ.visited.preorder, t.tag ≠ .bodyList := fun t ht => hs t (hsub ht)
        have hchild := s.parts_subset_children hperforms.mem_parts
        -- the part that starts the number of the `return` has the `return` below it
        have hin : .return i value ∈ ρ.visited.preorder := by
          have hnumber : i.id ∈ numbers ρ.visited.preorder :=
            started_subset fuel f ρ.visited ρ.entry hbodies (by simp [hρ])
          obtain ⟨t, ht, hid⟩ := List.mem_map.mp hnumber
          have ht' : t = .return i value := List.inj_on_of_nodup_map hdistinct (hsub ht)
            (forest_children_subset s hbelow) hid
          rwa [ht'] at ht
        obtain ⟨rfl, w₁, rs, hreaches, hanswer⟩ :=
          ih ρ.visited hchild hbodies (hdistinct.below.tree hchild) hin hρ
        rw [hrun] at hanswer
        obtain ⟨hanswer, hexit⟩ := Prod.mk.inj hanswer
        have hleaves : ρ.Leaves := fun out hout => flow_of_returned (hanswer.symm.trans hout)
        obtain ⟨rfl, rs', hend⟩ := hρs.quits rfl hleaves
        refine ⟨rfl, w₁, rs ++ rs', .part hperforms hreaches, ?_⟩
        rw [hend, hanswer, hexit, World.release_release]

end Stmt

namespace Script

variable {u : Doc.Unit} {firstStmt : StmtId}

/-- In a unit without handler bodies a `return` is the last statement to start in
a run, however deep it stands. The run then answers the value of its expression,
or nothing, with the flow of a `return`, or fails as evaluating the expression
did; and the world is the one that was left there, but for the iterations of
tables that are given back. -/
theorem return_ends_run
    (hbodies : ∀ s ∈ (build u firstStmt).body.preorder, s.tag ≠ .bodyList)
    {i : StmtInfo} {value : Option Expr}
    (hreturn : .return i value ∈ (build u firstStmt).body.preorder) (fuel : Nat) (f : FrameRef)
    (w : World) {before after : List StmtId}
    (hstarts : started (((build u firstStmt).run fuel f).log w) = before ++ i.id :: after) :
    after = [] ∧ ∃ w₁ rs, (build u firstStmt).body.Reaches fuel f w (.return i value) w₁ ∧
      ((build u firstStmt).run fuel f).runFrom w =
        (Stmt.returned f value ((Exec.visit i).leaves w₁),
          (((Stmt.return i value).exec fuel f).leaves w₁).release rs) :=
  Stmt.return_ends hbodies (numbers_build u firstStmt).nodup hreturn hstarts

/-- A `return` in a switch, in a `while` loop, in a loop over a table. -/
def returnsInLoops : Doc.Unit where
  name := "u"
  kind := .function (some .count)
  locals := [⟨"t", .table [.count] .count, none, .unknown⟩]
  body := .list [
    .expr (.assign (.index (.name "t") [.const (.count 3)]) (.const (.count 4))),
    .for [⟨"k", none, .unknown⟩] none (.name "t")
      (.list [
        .while (.const (.bool true)) (.switch (.name "k")
            [.mk none none (.return (some (.name "k")))]),
        .print [.const (.str "after the loop")]]),
    .print [.const (.str "after the loop")]]

/-- The `return` is the last of nine statements that start, and the run gives its
value. -/
theorem return_ends_run_in_loops :
    ∃ (i : StmtInfo) (value : Option Expr) (w₁ : World),
      (∀ s ∈ (build returnsInLoops 0).body.preorder, s.tag ≠ .bodyList) ∧
      .return i value ∈ (build returnsInLoops 0).body.preorder ∧
      started (((build returnsInLoops 0).run 2 ⟨0⟩).log
        ((World.start default default).addFrame 2 none).2) =
          [10, 9, 8, 0, 6, 5, 3, 2] ++ i.id :: [] ∧
      (build returnsInLoops 0).body.Reaches 2 ⟨0⟩ ((World.start default default).addFrame 2 none).2
        (.return i value) w₁ ∧
      Stmt.returned ⟨0⟩ value ((Exec.visit i).leaves w₁) = .ok ⟨some (.count 3), .return⟩ := by
  have hbodies : ∀ s ∈ (build returnsInLoops 0).body.preorder, s.tag ≠ .bodyList := by
    decide +kernel
  have hfound : ∃ s ∈ (build returnsInLoops 0).body.preorder, s.tag = .return ∧ s.id = 1 := by
    decide +kernel
  obtain ⟨s, hs, htag, hid⟩ := hfound
  cases s with
  | «return» i value =>
    have hstarts : started (((build returnsInLoops 0).run 2 ⟨0⟩).log
        ((World.start default default).addFrame 2 none).2) =
          [10, 9, 8, 0, 6, 5, 3, 2] ++ i.id :: [] := by
      rw [show i.id = 1 from hid]
      decide +kernel
    have hanswer : (((build returnsInLoops 0).run 2 ⟨0⟩).runFrom
        ((World.start default default).addFrame 2 none).2).1 =
          .ok ⟨some (.count 3), .return⟩ := by decide +kernel
    obtain ⟨-, w₁, rs, hreaches, hrun⟩ := return_ends_run hbodies hs 2 ⟨0⟩ _ hstarts
    rw [hrun] at hanswer
    exact ⟨i, value, w₁, hbodies, hs, hstarts, hreaches, hanswer⟩
  | _ => cases htag

end Script

end Vigil
