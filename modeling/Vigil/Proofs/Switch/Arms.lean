import Vigil.Proofs.Build.Heads
import Vigil.Proofs.Deferral.Never
import Vigil.Proofs.Flow.Signals
import Vigil.Proofs.Flow.Visits

/-!
# Vigil.Proofs.Switch.Arms — how arms follow one another

Every arm of a switch in a unit that loads ends in a jump, possibly inside nested
lists (`Script.arms_end`). A list that ends so and does not defer the result never
reports `next`: before its last statement it goes on only from statements with
nothing to report, and the last one jumps (`Stmt.flow_ne_next_of_endsCase`). So no
arm is entered but the selected one, and those that an arm before passes control
to by `fallthrough`, or by a `next` that no loop of its own took up.
-/

namespace Vigil

open Exec (Keeps)
open Sequence (Trace Round Conclusion)
open World (Undeferred StaysUndeferred)

namespace Stmt

variable {fuel : Nat} {f : FrameRef} {w w' w₁ : World} {s : Stmt} {out : Outcome}

/-! ## Statements that end in jumps -/

theorem lastTagOf_append (before : List Stmt) (last : Stmt) :
    lastTagOf (before ++ [last]) = last.lastTag := by
  induction before with
  | nil => rfl
  | cons s rest ih =>
    cases rest with
    | nil => rfl
    | cons s' rest => exact ih

/-- A list goes on only from children with nothing to report, and does not run
out when the last of them always has something to report. -/
theorem list_flow_ne_next {i : StmtInfo} {before : List Stmt} {last : Stmt}
    (hdefers : ∀ t ∈ before ++ [last], t.defers = false)
    (hlast : ∀ w w' out, Undeferred f w → (last.exec fuel f).runFrom w = (.ok out, w') →
      out.flow ≠ .next)
    (hw : Undeferred f w)
    (hrun : ((Stmt.list i (before ++ [last])).exec fuel f).runFrom w = (.ok out, w')) :
    out.flow ≠ .next := by
  obtain ⟨ρs, ending, w₁, htrace, hresult⟩ := exists_list_trace fuel f i (before ++ [last]) w
  have hmem : ∀ ρ ∈ ρs, ρ.visited ∈ before ++ [last] := fun ρ hρ =>
    (htrace.visited_isPrefix list_takesHead).subset (List.mem_map_of_mem hρ)
  have hown : ∀ ρ ∈ ρs, Undeferred f ρ.entry ∧ Undeferred f ρ.exit := by
    intro ρ hρ
    have hpart : ∀ ρ ∈ ρs, Keeps (StaysUndeferred f) (ρ.visited.exec fuel f) := fun ρ hρ =>
      exec_staysUndeferred (hdefers _ (hmem ρ hρ))
    have hkeeps :=
      (htrace.keeps (childOffer_keeps Exec.setNext_staysUndeferred) hpart).1 ρ hρ
    have hstart : Undeferred f ((Exec.visit i).leaves w) := hw.of_frames rfl
    exact ⟨hkeeps.1 hstart, hkeeps.2 hstart⟩
  rw [hrun] at hresult
  cases ending with
  | brokeOff s => cases hresult
  | ranOut =>
    -- the last child was executed, and the list went on after it
    have hall := htrace.visited_eq_of_ranOut list_takesHead
    obtain ⟨ρ, hρ, hvisited⟩ : ∃ ρ ∈ ρs, ρ.visited = last :=
      List.mem_map.mp (hall ▸ List.mem_append_right _ (List.mem_singleton_self last))
    obtain ⟨out', hanswer, hon⟩ := htrace.goesOn_of_ranOut ρ hρ
    have hpart : (last.exec fuel f).runFrom ρ.entry = (.ok out', ρ.exit) := by
      rw [← hanswer, ← hvisited]
      exact htrace.runs ρ hρ
    exact absurd (congrArg Outcome.flow (listSequence_goesOn hon))
      (hlast _ _ _ (hown ρ hρ).1 hpart)
  | stopped =>
    obtain ⟨before', ρ, rfl, hstop, -⟩ := htrace.last_of_stopped
    have hρ : ρ ∈ before' ++ [ρ] := List.mem_append_right _ (List.mem_singleton_self ρ)
    have hanswer : ρ.answer = .ok out := by
      have hlastAnswer := congrArg Prod.fst hresult
      simpa [Sequence.result, Sequence.finish, Sequence.lastAnswer] using hlastAnswer.symm
    -- it stopped there, so there was a signal, a value or a deferred result
    intro hnext
    have hpart : (ρ.visited.exec fuel f).runFrom ρ.entry = (.ok out, ρ.exit) :=
      hanswer ▸ htrace.runs ρ hρ
    have hreports := exec_yields_of (act_reports fuel f ρ.visited) _ _ _ hpart
    have hvalue : out.value = none := by
      by_contra hsome
      have hreturn := hreports.value (Option.isSome_iff_ne_none.mpr hsome)
      cases hnext.symm.trans hreturn
    refine hstop ⟨out, hanswer, ?_⟩
    simp [listSequence, hnext, hvalue, (hown ρ hρ).2.delayed]

/-- What ends in a jump and does not defer the result has something to report. -/
theorem flow_ne_next_of_endsCase (hend : s.lastTag.endsCase = true) (hdefers : s.defers = false)
    (hw : Undeferred f w) (hrun : (s.exec fuel f).runFrom w = (.ok out, w')) :
    out.flow ≠ .next := by
  induction s using tree_induction generalizing w w' out with
  | h s ih =>
    have hsignals := (exec_yields_of (act_reports fuel f s) _ _ _ hrun).flow
    cases s with
    | list i body =>
      rw [defers] at hdefers
      rw [lastTag] at hend
      rcases List.eq_nil_or_concat body with rfl | ⟨before, last, rfl⟩
      · cases hend
      · rw [List.concat_eq_append] at *
        rw [lastTagOf_append] at hend
        have hbelow := defersList_eq_false_iff.mp hdefers
        have hmem : last ∈ before ++ [last] :=
          List.mem_append_right _ (List.mem_singleton_self last)
        exact list_flow_ne_next hbelow
          (fun _ _ _ hw hrun => ih last hmem hend (hbelow last hmem) hw hrun) hw hrun
    | «break» | fallthrough | «return» =>
      rw [signals, Finset.mem_singleton] at hsignals
      rw [hsignals]
      intro h
      cases h
    | _ => cases hend

/-! ## Arms -/

/-- The arms that are entered, of those from the selected one on. -/
structure EntersArms (f : FrameRef) (v : Value) (binding : Option Ident) (arms : List Case)
    (ρs : List (Round Case)) (ending : Conclusion) : Prop where
  /-- They are a block that begins with the selected one. -/
  block : ρs.map Round.visited <+: arms
  begins : ρs = [] → arms = [] ∨ ∃ s, ending = .brokeOff s
  whole : ending = .ranOut → ρs.map Round.visited = arms
  never_next : ∀ ρ ∈ ρs, ∀ out, ρ.answer = .ok out → out.flow ≠ .next
  /-- Control is passed on by a signal. -/
  passed : ∀ before ρ after, ρs = before ++ ρ :: after → after ≠ [] →
    ∃ out, ρ.answer = .ok out ∧ (out.flow = .fallthrough ∨ out.flow = .loop)
  bound : ∀ ρ ∈ ρs, ∀ id ∈ binding, ρ.holds f id.slot = some v

variable {v : Value} {binding : Option Ident} {arms : List Case} {ρs : List (Round Case)}
  {ending : Conclusion}

theorem bindCase_ok {id : Ident} (h : (bindCase f v (some id)).runFrom w = (.ok (), w')) :
    (Exec.writeSlot f id.slot v).runFrom w = (.ok (), w') := by
  rw [bindCase] at h
  obtain ⟨heap, w₀, hheap, h⟩ := Exec.bind_ok h
  cases hheap
  cases hview : w.heap.view? v id.ty with
  | none =>
    rw [hview] at h
    cases h
  | some v' =>
    rw [hview] at h
    unfold Heap.view? at hview
    split at hview
    · cases hview
      exact h
    · cases hview

theorem armOffer_some {bind : Exec Unit} {arms' : List Case} {c : Case}
    (h : ((armSequence fuel f bind).offer arms).runFrom w = (.ok (some (c, arms')), w')) :
    bind.runFrom w = (.ok (), w') := by
  cases arms with
  | nil => cases h
  | cons c rest =>
    obtain ⟨⟨⟩, w₁, hbind, hrun⟩ := Exec.bind_ok h
    cases hrun
    exact hbind

theorem entersArms (hend : ∀ c ∈ arms, c.body.lastTag.endsCase = true)
    (hdefers : ∀ c ∈ arms, c.body.defers = false) (hw : Undeferred f w)
    (h : (armSequence fuel f (bindCase f v binding)).Trace arms w ρs ending w') :
    EntersArms f v binding arms ρs ending := by
  have hblock := h.visited_isPrefix arms_takeHead
  have hmem : ∀ ρ ∈ ρs, ρ.visited ∈ arms := fun ρ hρ => hblock.subset (List.mem_map_of_mem hρ)
  have hoffer : ∀ arms, Keeps (StaysUndeferred f)
      ((armSequence fuel f (bindCase f v binding)).offer arms) :=
    armOffer_keeps (bindCase_local v binding).staysUndeferred
  have hentry : ∀ ρ ∈ ρs, Undeferred f ρ.entry := fun ρ hρ =>
    ((h.keeps hoffer fun ρ hρ => exec_staysUndeferred (hdefers _ (hmem ρ hρ))).1 ρ hρ).1 hw
  have hnext : ∀ ρ ∈ ρs, ∀ out, ρ.answer = .ok out → out.flow ≠ .next := by
    intro ρ hρ out hout
    have hrun : (ρ.visited.body.exec fuel f).runFrom ρ.entry = (.ok out, ρ.exit) :=
      hout ▸ h.runs ρ hρ
    exact flow_ne_next_of_endsCase (hend _ (hmem ρ hρ)) (hdefers _ (hmem ρ hρ)) (hentry ρ hρ) hrun
  refine ⟨hblock, ?_, ?_, hnext, ?_, ?_⟩
  · rintro rfl
    cases h with
    | ranOut hoffer => exact .inl (arms_takeHead.ended hoffer)
    | brokeOff => exact .inr ⟨_, rfl⟩
  · rintro rfl
    exact h.visited_eq_of_ranOut arms_takeHead
  · rintro before ρ after rfl hafter
    obtain ⟨out, hout, hon⟩ := h.goesOn_of_lt hafter
    refine ⟨out, hout, ?_⟩
    have hne := hnext ρ (by simp) out hout
    have hstops : out.flow.stops = false := by simpa [armSequence] using hon
    cases hflow : out.flow with
    | next => exact absurd hflow hne
    | fallthrough => exact .inl rfl
    | loop => exact .inr rfl
    | «break» | «return» =>
      rw [hflow] at hstops
      cases hstops
  · intro ρ hρ id hid
    have hmoves : ∀ arms, Keeps (Relation.ReflTransGen (World.Step f))
        ((armSequence fuel f (bindCase f v binding)).offer arms) :=
      armOffer_keeps (bindCase_keeps fun _ _ => writeSlot_moves _)
    obtain ⟨p₀, p₁, w₀, hsteps, hoffered⟩ :=
      h.offered hmoves (fun c => exec_moves fuel f c.body) ρ hρ
    cases hid
    obtain ⟨-, hslots⟩ := Exec.writeSlot_ok (bindCase_ok (armOffer_some hoffered))
    rw [Round.holds, hslots ((World.hasFrame_of_steps hsteps f).mpr hw.hasFrame), if_pos rfl]

end Stmt

/-- Of the arms of a switch that is executed in `w`, those are entered that
`EntersArms` tells. -/
def Stmt.SwitchEnters (fuel : Nat) (f : FrameRef) (w : World) (i : StmtInfo) (selector : Expr)
    (cases : List Case) (dispatch : Dispatch) : Prop :=
  ∀ v w₁ arm binding, (selector.eval f).runFrom ((Exec.visit i).leaves w) = (.ok v, w₁) →
    dispatch.find w₁.heap selector.ty v = .ok (some arm, binding) →
    ∃ ρs ending w',
      let q := armSequence fuel f (bindCase f v binding)
      q.Trace (cases.drop arm) w₁ ρs ending w' ∧
        ((Stmt.switch i selector cases dispatch).exec fuel f).runFrom w =
          ended Outcome.afterSwitch (q.result .next ρs w' ending) ∧
        EntersArms f v binding (cases.drop arm) ρs ending

/-- Where a switch leads that is executed in `w`: the value, the arm selected for
it and what the value is bound to. -/
def Stmt.selects (f : FrameRef) (w : World) : Stmt → Option (Value × Nat × Option Ident)
  | .switch i selector _ dispatch =>
    match (selector.eval f).runFrom ((Exec.visit i).leaves w) with
    | (.ok v, w₁) =>
      match dispatch.find w₁.heap selector.ty v with
      | .ok (some arm, binding) => some (v, arm, binding)
      | _ => none
    | _ => none
  | _ => none

theorem Stmt.selects_eq_some {f : FrameRef} {w : World} {i : StmtInfo} {selector : Expr}
    {cases : List Case} {dispatch : Dispatch} {v : Value} {arm : Nat} {binding : Option Ident}
    (h : (Stmt.switch i selector cases dispatch).selects f w = some (v, arm, binding)) :
    ∃ w₁, (selector.eval f).runFrom ((Exec.visit i).leaves w) = (.ok v, w₁) ∧
      dispatch.find w₁.heap selector.ty v = .ok (some arm, binding) := by
  rw [selects] at h
  split at h
  · rename_i v' w₁ heval
    split at h
    · rename_i hfind
      cases h
      exact ⟨w₁, heval, hfind⟩
    · cases h
  · cases h

/-- A switch over what is in `x`. A count is bound to `c` and handed on by
`fallthrough`, then by `next`, to the default. -/
def handingOn : Doc.Unit where
  name := "u"
  kind := .toplevel
  locals := [⟨"x", .any, none, .unknown⟩]
  body := .switch (.name "x")
    [.mk none (some [⟨.string, none, .unknown⟩]) .break,
      .mk none (some [⟨.count, some "c", .unknown⟩]) (.list [.null, .list [.fallthrough]]),
      .mk none (some [⟨.bool, none, .unknown⟩]) (.list [.cond (.const (.bool true)) .next none,
          .break]),
      .mk none none .break]

end Vigil
