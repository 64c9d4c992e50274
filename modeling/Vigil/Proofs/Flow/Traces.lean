import Vigil.Proofs.Deferral.Phases
import Vigil.Proofs.Typing.Heap

/-!
# Vigil.Proofs.Flow.Traces — the parts of a statement as they are executed

A statement that has parts executes them one after the other: the children of a
list, the rounds of a loop, the arms of a switch. All of these are sequences
(`Sequence`): at a position it is told, and prepared, what comes next; the part
is executed; and what it reports decides whether the sequence goes on.

The trace of a sequence lists the parts that were executed, each with the world
it was entered in, its answer and the world it left (`Sequence.Trace`). Every run
has one, however it ends: the sequence runs out, a part stops it or fails, or it
is broken off between two parts (`Sequence.Drives.exists_trace`).

`Stmt.Performs` says which part a statement executes in which world, and
`Stmt.Reaches` which statements are executed anywhere below it.
-/

namespace Vigil

open Exec (leaves runFrom_bind)

variable {v : Value} {R : World → World → Prop} {s : Stop} {f : FrameRef} {out : Outcome}

namespace Exec

variable {α β : Type} {x : Exec α} {k k' : α → Exec β} {w w' : World}

theorem runFrom_bind_of_ok {a : α} (h : x.runFrom w = (.ok a, w')) :
    (x >>= k).runFrom w = (k a).runFrom w' := by
  rw [runFrom_bind, h]

theorem runFrom_bind_of_error (h : x.runFrom w = (.error s, w')) :
    (x >>= k).runFrom w = (.error s, w') := by
  rw [runFrom_bind, h]

theorem runFrom_bind_congr (h : ∀ a w', (k a).runFrom w' = (k' a).runFrom w') :
    (x >>= k).runFrom w = (x >>= k').runFrom w := by
  rw [runFrom_bind, runFrom_bind]
  rcases x.runFrom w with ⟨_ | a, w'⟩
  · rfl
  · exact h a w'

/-- What comes out of a computation whose result is passed on changed. -/
theorem runFrom_bind_pure (x : Exec α) (g : α → β) (w : World) :
    (x >>= fun a => pure (g a)).runFrom w = Prod.map (Except.map g) id (x.runFrom w) := by
  rw [runFrom_bind]
  rcases x.runFrom w with ⟨_ | a, w'⟩ <;> rfl

end Exec

/-! ## Iterations that are given back -/

/-- The world after the iterations of some tables were given back. -/
def World.release (rs : List TableRef) (w : World) : World :=
  rs.foldl (fun w r => (Exec.modifyTable r Table.leave).leaves w) w

namespace World

@[simp] theorem release_nil (w : World) : w.release [] = w := rfl

theorem release_release (rs rs' : List TableRef) (w : World) :
    (w.release rs).release rs' = w.release (rs ++ rs') := List.foldl_append.symm

end World

/-- Nothing was entered into the journal, and the result of the frame is deferred
if it was before. -/
def World.Calm (f : FrameRef) (w w' : World) : Prop :=
  w'.journal = w.journal ∧ (w'.frame f).delayed = (w.frame f).delayed ∧
    (w'.HasFrame f ↔ w.HasFrame f)

instance (f : FrameRef) : IsPreorder World (World.Calm f) where
  refl _ := ⟨rfl, rfl, .rfl⟩
  trans _ _ _ h h' := ⟨h'.1.trans h.1, h'.2.1.trans h.2.1, h'.2.2.trans h.2.2⟩

theorem World.hasFrame_of_steps {w w' : World} (h : Relation.ReflTransGen (World.Step f) w w')
    (g : FrameRef) :
    w'.HasFrame g ↔ w.HasFrame g := by
  induction h with
  | refl => exact .rfl
  | tail _ hstep ih => exact (hstep.hasFrame g).trans ih

/-- A value that was stored is there, the other variables are as before, and so
are the collections. -/
theorem Exec.writeSlot_ok {i : Nat} {w w' : World}
    (h : (Exec.writeSlot f i v).runFrom w = (.ok (), w')) :
    w'.heap = w.heap ∧ (w.HasFrame f → ∀ j,
      (w'.frame f).slots.get j = if j = i then some v else (w.frame f).slots.get j) := by
  rw [Exec.runFrom_writeSlot] at h
  cases hset : (w.frame f).slots.set i v with
  | error a =>
    rw [hset] at h
    cases h
  | ok slots =>
    rw [hset] at h
    cases h
    refine ⟨rfl, fun hf j => ?_⟩
    rw [World.frame_modifyFrame_self hf]
    exact Slots.get_set hset j

/-! ## Sequences -/

/-- Parts executed one after the other, with positions in `σ` and parts told by
labels in `ι`. -/
structure Sequence (σ ι : Type) where
  /-- Prepares the part that comes next, if there is one, and tells the position
  after it. -/
  offer : σ → Exec (Option (ι × σ))
  part : ι → Exec Outcome
  /-- Whether there is to be another part after one that reported this. -/
  goesOn : Outcome → World → Bool
  /-- Tables whose iteration is given back at the end. -/
  held : List TableRef

namespace Sequence

variable {σ ι κ : Type}

/-- One execution of a part. -/
structure Round (ι : Type) where
  visited : ι
  entry : World
  answer : Except Stop Outcome
  exit : World

/-- The execution of the same part under another label. -/
def Round.relabel (g : ι → κ) (ρ : Round ι) : Round κ := { ρ with visited := g ρ.visited }

/-- How a sequence ended. -/
inductive Conclusion where
  /-- There was no further part. -/
  | ranOut
  /-- The last part did not let it go on. -/
  | stopped
  /-- The next part could not be prepared. -/
  | brokeOff (s : Stop)
deriving DecidableEq, Repr

/-- The part came to an end, and there is to be another one after it. -/
def GoesOn (q : Sequence σ ι) (ρ : Round ι) : Prop :=
  ∃ out, ρ.answer = .ok out ∧ q.goesOn out ρ.exit = true

/-- From a position on, the executions of the parts, how the sequence ended and
the world it left. -/
inductive Trace (q : Sequence σ ι) : σ → World → List (Round ι) → Conclusion → World → Prop where
  | ranOut {p w w'} (hoffer : (q.offer p).runFrom w = (.ok none, w')) :
      Trace q p w [] .ranOut w'
  | brokeOff {p w w' s} (hoffer : (q.offer p).runFrom w = (.error s, w')) :
      Trace q p w [] (.brokeOff s) w'
  | stopped {p p' w ρ} (hoffer : (q.offer p).runFrom w = (.ok (some (ρ.visited, p')), ρ.entry))
      (hpart : (q.part ρ.visited).runFrom ρ.entry = (ρ.answer, ρ.exit)) (hstop : ¬ q.GoesOn ρ) :
      Trace q p w [ρ] .stopped ρ.exit
  | goesOn {p p' w w' ρ ρs ending}
      (hoffer : (q.offer p).runFrom w = (.ok (some (ρ.visited, p')), ρ.entry))
      (hpart : (q.part ρ.visited).runFrom ρ.entry = (ρ.answer, ρ.exit)) (hon : q.GoesOn ρ)
      (hrest : Trace q p' ρ.exit ρs ending w') : Trace q p w (ρ :: ρs) ending w'

/-- What the last of some executions answered; without any, what was reported
before. -/
def lastAnswer (last : Outcome) (ρs : List (Round ι)) : Except Stop Outcome :=
  (ρs.getLast?.map Round.answer).getD (.ok last)

/-- The end of a sequence: what is held is given back unless the run does not
come back either. -/
def finish (q : Sequence σ ι) (answer : Except Stop Outcome) (w : World) :
    Except Stop Outcome × World :=
  (answer, if Exec.cameBack answer then w.release q.held else w)

/-- Answer of a sequence with these executions, and the world it leaves. -/
def result (q : Sequence σ ι) (last : Outcome) (ρs : List (Round ι)) (w : World) :
    Conclusion → Except Stop Outcome × World
  | .brokeOff s => (.error s, w)
  | .ranOut | .stopped => q.finish (lastAnswer last ρs) w

/-- A part, and the rest of the sequence after it. -/
def turn (q : Sequence σ ι) (rest : Outcome → Exec Outcome) (x : ι) : Exec Outcome := do
  let out ← Exec.onFault (q.part x) fun e => do
    modify (World.release q.held)
    Exec.fault e
  if q.goesOn out (← get) then rest out
  else
    modify (World.release q.held)
    pure out

/-- What is done at a position, when the rest of the sequence is known. -/
def look (q : Sequence σ ι) (rounds : σ → Outcome → Exec Outcome) (p : σ) (last : Outcome) :
    Exec Outcome := do
  match ← q.offer p with
  | none =>
    modify (World.release q.held)
    pure last
  | some (x, p') => q.turn (rounds p') x

/-- The computations `rounds` go through the sequence, and each part uses up some
of a budget. -/
structure Drives (q : Sequence σ ι) (budget : σ → Nat) (rounds : σ → Outcome → Exec Outcome) :
    Prop where
  look_eq : ∀ p last w, (rounds p last).runFrom w = (q.look rounds p last).runFrom w
  less : ∀ {p p' x w w'}, (q.offer p).runFrom w = (.ok (some (x, p')), w') → budget p' < budget p

variable {q : Sequence σ ι} {p p' : σ} {w w' w₁ : World} {ρ : Round ι} {ρs : List (Round ι)}
  {ending : Conclusion} {last : Outcome} {rounds : σ → Outcome → Exec Outcome}

/-! ### Runs have traces -/

theorem runFrom_turn (rest : Outcome → Exec Outcome) (x : ι) (w : World) :
    (q.turn rest x).runFrom w = match (q.part x).runFrom w with
      | (.ok out, w') =>
        if q.goesOn out w' then (rest out).runFrom w' else q.finish (.ok out) w'
      | (.error s, w') => q.finish (.error s) w' := by
  unfold turn
  rw [runFrom_bind, Exec.runFrom_onFault]
  rcases (q.part x).runFrom w with ⟨(e | a | _) | out, w'⟩
  · rfl
  · rfl
  · rfl
  · dsimp only
    rw [runFrom_bind, Exec.runFrom_get]
    dsimp only
    split <;> rfl

/-- A sequence that holds nothing has nothing to do at its end. -/
theorem runFrom_turn_of_free (hfree : q.held = []) (rest : Outcome → Exec Outcome) (x : ι)
    (w : World) :
    (q.turn rest x).runFrom w = Exec.runFrom (do
      let out ← q.part x
      if q.goesOn out (← get) then rest out else pure out) w := by
  have hfinish : ∀ answer w', q.finish answer w' = (answer, w') := by
    intro answer w'
    rw [finish, hfree, World.release_nil, ite_self]
  rw [runFrom_turn, runFrom_bind]
  rcases (q.part x).runFrom w with ⟨s | out, w'⟩
  · exact hfinish _ _
  · dsimp only
    rw [runFrom_bind, Exec.runFrom_get, hfinish]
    dsimp only
    split <;> rfl

theorem runFrom_look_of_some {x : ι} (h : (q.offer p).runFrom w = (.ok (some (x, p')), w₁)) :
    (q.look rounds p last).runFrom w = (q.turn (rounds p') x).runFrom w₁ := by
  rw [look, runFrom_bind, h]

theorem runFrom_look_of_none (h : (q.offer p).runFrom w = (.ok none, w₁)) :
    (q.look rounds p last).runFrom w = (.ok last, w₁.release q.held) := by
  rw [look, runFrom_bind, h]
  rfl

theorem runFrom_look_of_error (h : (q.offer p).runFrom w = (.error s, w₁)) :
    (q.look rounds p last).runFrom w = (.error s, w₁) := by
  rw [look, runFrom_bind, h]

/-- The part that is offered once `x` came to its result. -/
theorem runFrom_look_of_bind {α : Type} {x : Exec α} {g : α → ι}
    (h : (q.offer p).runFrom w =
      Exec.runFrom (x >>= fun a => pure (some (g a, p'))) w) :
    (q.look rounds p last).runFrom w =
      Exec.runFrom (x >>= fun a => q.turn (rounds p') (g a)) w := by
  rw [look, runFrom_bind, h, ← runFrom_bind, bind_assoc]
  simp only [pure_bind]

/-- Positions that offer the same are alike. -/
theorem runFrom_look_congr (h : (q.offer p).runFrom w = (q.offer p').runFrom w) :
    (q.look rounds p last).runFrom w = (q.look rounds p' last).runFrom w := by
  rw [look, look, runFrom_bind, runFrom_bind, h]

theorem lastAnswer_cons (h : ρ.answer = .ok out) :
    lastAnswer last (ρ :: ρs) = lastAnswer out ρs := by
  unfold lastAnswer
  rw [List.getLast?_cons, Option.map_some, Option.getD_some]
  cases ρs.getLast? with
  | none => exact h
  | some ρ' => rfl

/-- A run of the sequence has a trace, which tells its answer and the world it
leaves. -/
theorem Drives.exists_trace {budget : σ → Nat} (h : q.Drives budget rounds) (p : σ) (last : Outcome)
    (w : World) :
    ∃ ρs ending w', q.Trace p w ρs ending w' ∧
      (rounds p last).runFrom w = q.result last ρs w' ending := by
  induction hn : budget p using Nat.strongRecOn generalizing p last w with
  | _ n ih =>
    rw [h.look_eq]
    rcases hoffer : (q.offer p).runFrom w with ⟨s | _ | ⟨x, p'⟩, w₁⟩
    · exact ⟨[], .brokeOff s, w₁, .brokeOff hoffer, runFrom_look_of_error hoffer⟩
    · exact ⟨[], .ranOut, w₁, .ranOut hoffer, runFrom_look_of_none hoffer⟩
    · rw [runFrom_look_of_some hoffer, runFrom_turn]
      rcases hpart : (q.part x).runFrom w₁ with ⟨s | out, w₂⟩
      · refine ⟨[⟨x, w₁, .error s, w₂⟩], .stopped, w₂, .stopped hoffer hpart ?_, rfl⟩
        rintro ⟨out, hout, -⟩
        cases hout
      · dsimp only
        by_cases hon : q.goesOn out w₂ = true
        · rw [if_pos hon]
          obtain ⟨ρs, ending, w', htrace, hrun⟩ := ih _ (hn ▸ h.less hoffer) p' out w₂ rfl
          refine ⟨⟨x, w₁, .ok out, w₂⟩ :: ρs, ending, w',
            .goesOn hoffer hpart ⟨out, rfl, hon⟩ htrace, ?_⟩
          rw [hrun]
          cases ending with
          | brokeOff => rfl
          | ranOut | stopped => rw [result, result, lastAnswer_cons rfl]
        · rw [if_neg hon]
          refine ⟨[⟨x, w₁, .ok out, w₂⟩], .stopped, w₂, .stopped hoffer hpart ?_, rfl⟩
          rintro ⟨out', hout, hon'⟩
          cases hout
          exact hon hon'

/-! ### What traces are made of -/

/-- Each execution is one of its part. -/
theorem Trace.runs (h : q.Trace p w ρs ending w') :
    ∀ ρ ∈ ρs, (q.part ρ.visited).runFrom ρ.entry = (ρ.answer, ρ.exit) := by
  induction h with
  | ranOut | brokeOff => exact fun _ hρ => absurd hρ List.not_mem_nil
  | stopped _ hpart _ =>
    intro ρ' hρ
    rwa [List.mem_singleton.mp hρ]
  | goesOn _ hpart _ _ ih => exact List.forall_mem_cons.mpr ⟨hpart, ih⟩

/-- Only after the last part does the sequence not go on. -/
theorem Trace.goesOn_of_lt {before after : List (Round ι)}
    (h : q.Trace p w (before ++ ρ :: after) ending w') (hafter : after ≠ []) : q.GoesOn ρ := by
  generalize hρs : before ++ ρ :: after = ρs at h
  induction h generalizing before with
  | ranOut | brokeOff => simp at hρs
  | stopped =>
    have hlength := congrArg List.length hρs
    have hpos := List.length_pos_iff.mpr hafter
    simp only [List.length_append, List.length_cons, List.length_nil] at hlength
    omega
  | goesOn _ _ hon _ ih =>
    cases before with
    | nil =>
      rw [List.nil_append] at hρs
      cases hρs
      exact hon
    | cons ρ' before =>
      rw [List.cons_append] at hρs
      cases hρs
      exact ih rfl

/-- A part that does not let the sequence go on is its last. -/
theorem Trace.last_of_not_goesOn {before after : List (Round ι)}
    (h : q.Trace p w (before ++ ρ :: after) ending w') (hρ : ¬ q.GoesOn ρ) :
    after = [] ∧ ending = .stopped ∧ w' = ρ.exit := by
  have hafter : after = [] := by
    by_contra hne
    exact hρ (h.goesOn_of_lt hne)
  subst hafter
  refine ⟨rfl, ?_⟩
  generalize hρs : before ++ [ρ] = ρs at h
  induction h generalizing before with
  | ranOut | brokeOff => simp at hρs
  | stopped =>
    cases before with
    | nil =>
      cases hρs
      exact ⟨rfl, rfl⟩
    | cons ρ' before => simp at hρs
  | goesOn _ _ hon hrest ih =>
    cases before with
    | nil =>
      cases hρs
      exact absurd hon hρ
    | cons ρ' before =>
      rw [List.cons_append] at hρs
      cases hρs
      exact ih rfl

/-- A sequence that was stopped has a part that stopped it. -/
theorem Trace.last_of_stopped (h : q.Trace p w ρs .stopped w') :
    ∃ before ρ, ρs = before ++ [ρ] ∧ ¬ q.GoesOn ρ ∧ w' = ρ.exit := by
  generalize hending : Conclusion.stopped = ending at h
  induction h with
  | ranOut | brokeOff => cases hending
  | @stopped _ _ _ ρ _ _ hstop => exact ⟨[], ρ, rfl, hstop, rfl⟩
  | @goesOn _ _ _ _ ρ₀ _ _ _ _ _ _ ih =>
    obtain ⟨before, ρ, rfl, hρ⟩ := ih hending
    exact ⟨ρ₀ :: before, ρ, rfl, hρ⟩

/-- A sequence that ran out went on after each of its parts. -/
theorem Trace.goesOn_of_ranOut (h : q.Trace p w ρs .ranOut w') : ∀ ρ ∈ ρs, q.GoesOn ρ := by
  generalize hending : Conclusion.ranOut = ending at h
  induction h with
  | ranOut => exact fun _ hρ => absurd hρ List.not_mem_nil
  | brokeOff | stopped => cases hending
  | goesOn _ _ hon _ ih => exact List.forall_mem_cons.mpr ⟨hon, ih hending⟩

/-- The positions are what is still to come, and the first of it is what comes
next. -/
structure TakesHead (q : Sequence (List ι) ι) : Prop where
  more : ∀ {p p' x w w'}, (q.offer p).runFrom w = (.ok (some (x, p')), w') → p = x :: p'
  ended : ∀ {p w w'}, (q.offer p).runFrom w = (.ok none, w') → p = []

section

variable {q : Sequence (List ι) ι} (bind : ι → Exec Unit) (hnil : q.offer [] = pure none)
  (hcons : ∀ x rest, q.offer (x :: rest) = bind x >>= fun _ => pure (some (x, rest)))
include hnil hcons

theorem TakesHead.of_offer : q.TakesHead where
  more {p p' x w w'} h := by
    cases p with
    | nil =>
      rw [hnil] at h
      cases h
    | cons y rest =>
      rw [hcons] at h
      obtain ⟨⟨⟩, w₁, -, hrun⟩ := Exec.bind_ok h
      cases hrun
      rfl
  ended {p w w'} h := by
    cases p with
    | nil => rfl
    | cons y rest =>
      rw [hcons] at h
      obtain ⟨⟨⟩, w₁, -, hrun⟩ := Exec.bind_ok h
      cases hrun

theorem Drives.of_offer {rounds : List ι → Outcome → Exec Outcome}
    (hend : ∀ last w, (rounds [] last).runFrom w = (.ok last, w.release q.held))
    (hmore : ∀ x rest last w, (rounds (x :: rest) last).runFrom w =
      Exec.runFrom (bind x >>= fun _ => q.turn (rounds rest) x) w) :
    q.Drives List.length rounds where
  look_eq p last w := by
    cases p with
    | nil => rw [hend, runFrom_look_of_none (congrArg (Exec.runFrom · w) hnil)]
    | cons x rest => rw [hmore, runFrom_look_of_bind (congrArg (Exec.runFrom · w) (hcons x rest))]
  less hoffer := by
    rw [(TakesHead.of_offer bind hnil hcons).more hoffer]
    exact Nat.lt_succ_self _

end

/-- What was visited is the first of what was to come. -/
theorem Trace.visited_isPrefix {q : Sequence (List ι) ι} {p : List ι} (hq : q.TakesHead)
    (h : q.Trace p w ρs ending w') : ρs.map Round.visited <+: p := by
  induction h with
  | ranOut | brokeOff => exact List.nil_prefix
  | stopped hoffer =>
    rw [hq.more hoffer]
    exact ⟨_, rfl⟩
  | goesOn hoffer _ _ _ ih =>
    rw [hq.more hoffer]
    exact List.prefix_cons_inj _ |>.mpr ih

/-- A sequence that ran out visited all that was to come. -/
theorem Trace.visited_eq_of_ranOut {q : Sequence (List ι) ι} {p : List ι} (hq : q.TakesHead)
    (h : q.Trace p w ρs .ranOut w') : ρs.map Round.visited = p := by
  generalize hending : Conclusion.ranOut = ending at h
  induction h with
  | ranOut hoffer => rw [hq.ended hoffer, List.map_nil]
  | brokeOff | stopped => cases hending
  | goesOn hoffer _ _ _ ih => rw [hq.more hoffer, List.map_cons, ih hending]

/-- What is prepared and what the parts do keeps to a relation, so each part is
entered and left in a related world. -/
theorem Trace.keeps [IsPreorder World R] (h : q.Trace p w ρs ending w')
    (hoffer : ∀ p, Exec.Keeps R (q.offer p)) (hpart : ∀ ρ ∈ ρs, Exec.Keeps R (q.part ρ.visited)) :
    (∀ ρ ∈ ρs, R w ρ.entry ∧ R w ρ.exit) ∧ R w w' := by
  induction h with
  | ranOut h | brokeOff h => exact ⟨fun _ hρ => absurd hρ List.not_mem_nil, (hoffer _).run h⟩
  | @stopped _ _ w ρ h hrun _ =>
    have hentry := (hoffer _).run h
    have hexit := (hpart ρ List.mem_cons_self).run hrun
    have hend : R w ρ.exit := trans_of R hentry hexit
    exact ⟨List.forall_mem_singleton.mpr ⟨hentry, hend⟩, hend⟩
  | @goesOn _ _ w _ ρ _ _ h hrun _ _ ih =>
    have hentry := (hoffer _).run h
    have hexit := (hpart ρ List.mem_cons_self).run hrun
    have hend : R w ρ.exit := trans_of R hentry hexit
    obtain ⟨hrounds, hlast⟩ := ih fun ρ' hρ => hpart ρ' (List.mem_cons_of_mem _ hρ)
    refine ⟨List.forall_mem_cons.mpr ⟨⟨hentry, hend⟩, fun ρ' hρ => ?_⟩, trans_of R hend hlast⟩
    exact ⟨trans_of R hend (hrounds ρ' hρ).1, trans_of R hend (hrounds ρ' hρ).2⟩

/-- Each part was prepared, and that in a world related to the first one. -/
theorem Trace.offered [IsPreorder World R] (h : q.Trace p w ρs ending w')
    (hoffer : ∀ p, Exec.Keeps R (q.offer p)) (hpart : ∀ x, Exec.Keeps R (q.part x)) :
    ∀ ρ ∈ ρs, ∃ p₀ p₁ w₀, R w w₀ ∧
      (q.offer p₀).runFrom w₀ = (.ok (some (ρ.visited, p₁)), ρ.entry) := by
  induction h with
  | ranOut | brokeOff => exact fun _ hρ => absurd hρ List.not_mem_nil
  | stopped h => exact List.forall_mem_singleton.mpr ⟨_, _, _, refl_of R _, h⟩
  | @goesOn _ _ w _ ρ _ _ h hrun _ _ ih =>
    refine List.forall_mem_cons.mpr ⟨⟨_, _, _, refl_of R _, h⟩, fun ρ' hρ => ?_⟩
    obtain ⟨p₀, p₁, w₀, hR, hrest⟩ := ih ρ' hρ
    have hexit : R w ρ.exit := trans_of R ((hoffer _).run h) ((hpart _).run hrun)
    exact ⟨p₀, p₁, w₀, trans_of R hexit hR, hrest⟩

end Sequence

/-! ## The kinds of sequence -/

namespace Stmt

open Sequence (Trace Round Conclusion)

variable {fuel : Nat} {f : FrameRef} {w w' w₁ : World} {body : Exec Outcome} {last : Outcome}
  {r : TableRef} {bind : Value → Exec Unit} {limit : Option Nat} {test : Exec Value} {k : Key}
  {rest : List Key}

/-- The child that comes next is noted as such. -/
def childOffer (f : FrameRef) : List Stmt → Exec (Option (Stmt × List Stmt))
  | [] => pure none
  | s :: rest => do
    Exec.setNext f s.id
    pure (some (s, rest))

/-- The children of a list. -/
def listSequence (fuel : Nat) (f : FrameRef) : Sequence (List Stmt) Stmt where
  offer := childOffer f
  part := exec fuel f
  goesOn out w := out.flow = .next && out.value.isNone && (w.frame f).delayed.isNone
  held := []

/-- Handler bodies. What each reports is dropped. -/
def bodySequence (fuel : Nat) (f : FrameRef) : Sequence (List Stmt) Stmt where
  offer := childOffer f
  part s := do
    let _ ← Exec.onFault (exec fuel f s) fun _ => pure .next
    pure .next
  goesOn _ _ := true
  held := []

/-- The arms of a switch. The value is bound before each of them. -/
def armSequence (fuel : Nat) (f : FrameRef) (bind : Exec Unit) : Sequence (List Case) Case where
  offer
    | [] => pure none
    | c :: rest => do
      bind
      pure (some (c, rest))
  part c := exec fuel f c.body
  goesOn out _ := !out.flow.stops
  held := []

/-- A loop goes on until a round breaks or returns. -/
def loopSequence {σ ι : Type} (offer : σ → Exec (Option (ι × σ))) (body : Exec Outcome)
    (held : List TableRef) : Sequence σ ι where
  offer := offer
  part _ := body
  goesOn out _ := !out.flow.stops
  held := held

/-- Another round of a `while` loop, at a position told by the budget left and
the rounds taken. -/
def whileOffer (limit : Option Nat) (test : Exec Value) :
    Nat × Nat → Exec (Option (Nat × Nat × Nat))
  | (0, _) => throw .exhausted
  | (b + 1, n) => do
    let v ← test
    if v.isZero then pure none
    else if limit.any (· ≤ n) then Exec.fault (.iterationLimit (limit.getD 0))
    else pure (some (n, b, n + 1))

/-- An entry of a table as a loop visits it. -/
structure Visited where
  key : Key
  index : List Value
  value : Option Value

/-- The next of the keys that is present. -/
def tableOffer (r : TableRef) (bind : List Value → Option Value → Exec Unit) :
    List Key → Exec (Option (Visited × List Key))
  | [] => pure none
  | k :: rest => do
    let t := (← Exec.heap).table r
    match Table.find? k t.entries with
    | none => tableOffer r bind rest
    | some v =>
      let index ← Exec.ofAbort (t.indexOf k)
      bind index v
      pure (some (⟨k, index, v⟩, rest))

/-- The next filled position, from one told by the budget left and the place to
look at. -/
def vectorOffer (r : VecRef) (bind : Value → Exec Unit) :
    (fuel i : Nat) → Exec (Option (Nat × Nat × Nat))
  | 0, _ => throw .exhausted
  | b + 1, i => do
    let v := (← Exec.heap).vec r
    if v.size < i then pure none
    else if (v.lookup i).isNone then vectorOffer r bind b (i + 1)
    else
      bind (.count (.ofNat i))
      pure (some (i, b, i + 1))

def stringOffer (bind : Value → Exec Unit) : Bytes → Exec (Option (UInt8 × Bytes))
  | [] => pure none
  | b :: rest => do
    bind (.str [b])
    pure (some (b, rest))

def whileSequence (limit : Option Nat) (test : Exec Value) (body : Exec Outcome) :
    Sequence (Nat × Nat) Nat := loopSequence (whileOffer limit test) body []

def tableSequence (r : TableRef) (bind : List Value → Option Value → Exec Unit)
    (body : Exec Outcome) : Sequence (List Key) Visited := loopSequence (tableOffer r bind) body [r]

def vectorSequence (r : VecRef) (bind : Value → Exec Unit) (body : Exec Outcome) :
    Sequence (Nat × Nat) Nat := loopSequence (fun p => vectorOffer r bind p.1 p.2) body []

def stringSequence (bind : Value → Exec Unit) (body : Exec Outcome) : Sequence Bytes UInt8 :=
  loopSequence (stringOffer bind) body []

/-- A list goes on only from a child with nothing to report. -/
theorem listSequence_goesOn (h : (listSequence fuel f).goesOn out w = true) : out = .next := by
  obtain ⟨value, flow⟩ := out
  simp only [listSequence, Bool.and_eq_true, decide_eq_true_eq, Option.isNone_iff_eq_none] at h
  obtain ⟨⟨rfl, rfl⟩, -⟩ := h
  rfl

/-- A list whose child reported this stops or goes on as the sequence says. -/
theorem runFrom_list_turn (rest : Outcome → Exec Outcome) (s : Stmt) (w : World) :
    ((listSequence fuel f).turn rest s).runFrom w = Exec.runFrom (do
      let out ← exec fuel f s
      if out.flow ≠ .next || out.value.isSome || (← Exec.hasDelayed f) then pure out
      else rest .next) w := by
  have hpart : (listSequence fuel f).part s = exec fuel f s := rfl
  rw [Sequence.runFrom_turn_of_free rfl, hpart, runFrom_bind, runFrom_bind]
  rcases (exec fuel f s).runFrom w with ⟨_ | out, w'⟩
  · rfl
  · dsimp only
    rw [runFrom_bind, Exec.runFrom_get, runFrom_bind, Exec.runFrom_hasDelayed]
    dsimp only
    by_cases hon : (listSequence fuel f).goesOn out w' = true
    · have hout := listSequence_goesOn hon
      subst hout
      rw [if_pos hon, if_neg]
      simpa [listSequence, Outcome.next] using hon
    · rw [if_neg hon, if_pos]
      obtain ⟨value, flow⟩ := out
      simp only [listSequence, Bool.and_eq_true, decide_eq_true_eq, Option.isNone_iff_eq_none,
        not_and_or, ← Option.isSome_iff_ne_none] at hon
      simpa [or_assoc] using hon

theorem list_drives (fuel : Nat) (f : FrameRef) :
    (listSequence fuel f).Drives List.length fun ss last =>
      if ss.isEmpty then pure last else execList fuel f ss := by
  refine .of_offer (fun s => Exec.setNext f s.id) rfl (fun _ _ => rfl) (fun _ _ => rfl) ?_
  intro s rest last w
  rw [List.isEmpty_cons, if_neg Bool.false_ne_true, execList]
  refine Exec.runFrom_bind_congr fun _ w' => ?_
  rw [runFrom_list_turn]
  cases rest <;> rfl

/-- A loop that holds nothing goes on unless the round breaks or returns. -/
theorem runFrom_loop_turn {σ ι : Type} (offer : σ → Exec (Option (ι × σ)))
    (rest : Outcome → Exec Outcome) (x : ι) (w : World) :
    ((loopSequence offer body []).turn rest x).runFrom w = Exec.runFrom (do
      let out ← body
      if out.flow.stops then pure out else rest out) w := by
  have hpart : (loopSequence offer body []).part x = body := rfl
  rw [Sequence.runFrom_turn_of_free rfl, hpart, runFrom_bind, runFrom_bind]
  rcases body.runFrom w with ⟨_ | out, w'⟩
  · rfl
  · dsimp only
    rw [runFrom_bind, Exec.runFrom_get]
    dsimp only
    have hon : (loopSequence offer body []).goesOn out w' = !out.flow.stops := rfl
    rw [hon]
    cases out.flow.stops <;> rfl

theorem arms_drive (fuel : Nat) (f : FrameRef) (bind : Exec Unit) :
    (armSequence fuel f bind).Drives List.length (execCases fuel f bind 0) := by
  refine .of_offer (fun _ => bind) rfl (fun _ _ => rfl) ?_ ?_
  · intro last w
    rw [execCases]
    rfl
  · rintro ⟨labels, arm, span⟩ rest last w
    rw [execCases]
    exact Exec.runFrom_bind_congr fun _ w' => (runFrom_loop_turn
      (armSequence fuel f bind).offer _ (Case.mk labels arm span) w').symm

/-- The arms after the first few. -/
theorem execCases_eq_drop (bind : Exec Unit) (skip : Nat) (cases : List Case) (last : Outcome) :
    execCases fuel f bind skip cases last = execCases fuel f bind 0 (cases.drop skip) last := by
  induction cases generalizing skip with
  | nil => rw [List.drop_nil, execCases, execCases]
  | cons c rest ih =>
    cases skip with
    | zero => rfl
    | succ skip => rw [execCases, ih, List.drop_succ_cons]

/-- One more look at a `while` loop. -/
theorem whileRounds_succ {b n : Nat} :
    whileRounds limit test body (b + 1) n last = (do
      let v ← test
      if v.isZero then pure last
      else if limit.any (· ≤ n) then Exec.fault (.iterationLimit (limit.getD 0))
      else
        let out ← body
        if out.flow.stops then pure out else whileRounds limit test body b (n + 1) out) := by
  cases limit with
  | none => rfl
  | some max => simp only [whileRounds, Option.any_some, decide_eq_true_eq, Option.getD_some]

theorem while_drives (limit : Option Nat) (test : Exec Value) (body : Exec Outcome) :
    (whileSequence limit test body).Drives Prod.fst fun p last =>
      whileRounds limit test body p.1 p.2 last where
  look_eq p last w := by
    obtain ⟨_ | b, n⟩ := p
    · rfl
    · have hoffer : (whileSequence limit test body).offer = whileOffer limit test := rfl
      rw [whileRounds_succ, Sequence.look, hoffer, whileOffer, bind_assoc]
      refine Exec.runFrom_bind_congr fun v w' => ?_
      split
      · rfl
      · split
        · rfl
        · exact (runFrom_loop_turn _ _ n w').symm
  less {p p' x w w'} hoffer := by
    obtain ⟨_ | b, n⟩ := p
    · cases hoffer
    · obtain ⟨v, w₁, -, hrun⟩ := Exec.bind_ok hoffer
      split at hrun
      · cases hrun
      · split at hrun
        · cases hrun
        · cases hrun
          exact Nat.lt_succ_self _

/-- A round of a loop over a table gives the iteration back when it ends it. -/
theorem runFrom_table_turn {bind : List Value → Option Value → Exec Unit}
    (rest : Outcome → Exec Outcome) (x : Visited) (w : World) :
    ((tableSequence r bind body).turn rest x).runFrom w = Exec.runFrom (do
      let out ← Exec.onFault body fun e => do
        Exec.modifyTable r Table.leave
        Exec.fault e
      if out.flow.stops then
        Exec.modifyTable r Table.leave
        pure out
      else rest out) w := by
  have hpart : (tableSequence r bind body).part x = body := rfl
  rw [Sequence.runFrom_turn, hpart, runFrom_bind, Exec.runFrom_onFault]
  rcases body.runFrom w with ⟨(e | a | _) | out, w'⟩
  · rfl
  · rfl
  · rfl
  · have hon : (tableSequence r bind body).goesOn out w' = !out.flow.stops := rfl
    dsimp only
    rw [hon]
    cases out.flow.stops <;> rfl

/-- One key of a loop over a table. -/
theorem runFrom_tableRounds_cons {bind : List Value → Option Value → Exec Unit} :
    (tableRounds r bind body (k :: rest) last).runFrom w =
      match Table.find? k (w.heap.table r).entries with
      | none => (tableRounds r bind body rest last).runFrom w
      | some v => Exec.runFrom (do
        let index ← Exec.ofAbort ((w.heap.table r).indexOf k)
        bind index v
        let out ← Exec.onFault body fun e => do
          Exec.modifyTable r Table.leave
          Exec.fault e
        if out.flow.stops then
          Exec.modifyTable r Table.leave
          pure out
        else tableRounds r bind body rest out) w := by
  rw [tableRounds, runFrom_bind]
  change Exec.runFrom (match Table.find? k (w.heap.table r).entries with | none => _ | some v => _)
    w = _
  cases Table.find? k (w.heap.table r).entries <;> rfl

/-- One key, as it is offered. -/
theorem runFrom_tableOffer_cons {bind : List Value → Option Value → Exec Unit} :
    (tableOffer r bind (k :: rest)).runFrom w =
      match Table.find? k (w.heap.table r).entries with
      | none => (tableOffer r bind rest).runFrom w
      | some v => Exec.runFrom (do
        let index ← Exec.ofAbort ((w.heap.table r).indexOf k)
        bind index v
        pure (some (⟨k, index, v⟩, rest))) w := by
  rw [tableOffer, runFrom_bind]
  change Exec.runFrom (match Table.find? k (w.heap.table r).entries with | none => _ | some v => _)
    w = _
  cases Table.find? k (w.heap.table r).entries <;> rfl

theorem table_drives (r : TableRef) (bind : List Value → Option Value → Exec Unit)
    (body : Exec Outcome) :
    (tableSequence r bind body).Drives List.length (tableRounds r bind body) where
  look_eq keys last w := by
    induction keys with
    | nil => rfl
    | cons k rest ih =>
      have hoffer : ((tableSequence r bind body).offer (k :: rest)).runFrom w = _ :=
        runFrom_tableOffer_cons
      rw [runFrom_tableRounds_cons]
      cases hfound : Table.find? k (w.heap.table r).entries with
      | none =>
        rw [hfound] at hoffer
        exact ih.trans (Sequence.runFrom_look_congr hoffer.symm)
      | some v =>
        rw [hfound] at hoffer
        dsimp only at hoffer ⊢
        cases hindex : (w.heap.table r).indexOf k with
        | error a =>
          rw [hindex, Exec.ofAbort] at hoffer
          exact (Sequence.runFrom_look_of_error hoffer).symm
        | ok index =>
          rw [hindex, Exec.ofAbort, pure_bind] at hoffer
          rw [Exec.ofAbort, pure_bind, Sequence.runFrom_look_of_bind hoffer]
          exact Exec.runFrom_bind_congr fun _ w' => (runFrom_table_turn _ _ w').symm
  less {keys keys' x w w'} hoffer := by
    induction keys with
    | nil => cases hoffer
    | cons k rest ih =>
      replace hoffer : (tableOffer r bind (k :: rest)).runFrom w = _ := hoffer
      rw [runFrom_tableOffer_cons] at hoffer
      split at hoffer
      · exact Nat.lt_succ_of_lt (ih hoffer)
      · obtain ⟨index, w₁, -, hrun⟩ := Exec.bind_ok hoffer
        obtain ⟨⟨⟩, w₂, -, hrun⟩ := Exec.bind_ok hrun
        cases hrun
        exact Nat.lt_succ_self _

/-- One place of a loop over a vector. -/
theorem runFrom_vectorRounds_succ {r : VecRef} {b i : Nat} :
    (vectorRounds r bind body (b + 1) i last).runFrom w =
      if (w.heap.vec r).size < i then (.ok last, w)
      else if ((w.heap.vec r).lookup i).isNone then
        (vectorRounds r bind body b (i + 1) last).runFrom w
      else Exec.runFrom (do
        bind (.count (.ofNat i))
        let out ← body
        if out.flow.stops then pure out else vectorRounds r bind body b (i + 1) out) w := by
  rw [vectorRounds, runFrom_bind]
  change Exec.runFrom (if (w.heap.vec r).size < i then _ else if _ then _ else _) w = _
  split
  · rfl
  · split <;> rfl

/-- One place, as it is offered. -/
theorem runFrom_vectorOffer_succ {r : VecRef} {b i : Nat} :
    (vectorOffer r bind (b + 1) i).runFrom w =
      if (w.heap.vec r).size < i then (.ok none, w)
      else if ((w.heap.vec r).lookup i).isNone then (vectorOffer r bind b (i + 1)).runFrom w
      else Exec.runFrom (do
        bind (.count (.ofNat i))
        pure (some (i, b, i + 1))) w := by
  rw [vectorOffer, runFrom_bind]
  change Exec.runFrom (if (w.heap.vec r).size < i then _ else if _ then _ else _) w = _
  split
  · rfl
  · split <;> rfl

theorem vector_drives (r : VecRef) (bind : Value → Exec Unit) (body : Exec Outcome) :
    (vectorSequence r bind body).Drives Prod.fst fun p last =>
      vectorRounds r bind body p.1 p.2 last where
  look_eq p last w := by
    obtain ⟨b, i⟩ := p
    induction b generalizing i with
    | zero => rfl
    | succ b ih =>
      have hoffer : ((vectorSequence r bind body).offer (b + 1, i)).runFrom w = _ :=
        runFrom_vectorOffer_succ
      rw [runFrom_vectorRounds_succ]
      split
      · rename_i hend
        rw [if_pos hend] at hoffer
        exact (Sequence.runFrom_look_of_none hoffer).symm
      · rename_i hend
        rw [if_neg hend] at hoffer
        split
        · rename_i hhole
          rw [if_pos hhole] at hoffer
          exact (ih (i + 1)).trans (Sequence.runFrom_look_congr hoffer.symm)
        · rename_i hhole
          rw [if_neg hhole] at hoffer
          rw [Sequence.runFrom_look_of_bind hoffer]
          exact Exec.runFrom_bind_congr fun _ w' => (runFrom_loop_turn _ _ i w').symm
  less {p p' x w w'} hoffer := by
    obtain ⟨b, i⟩ := p
    replace hoffer : (vectorOffer r bind b i).runFrom w = _ := hoffer
    induction b generalizing i with
    | zero => cases hoffer
    | succ b ih =>
      rw [runFrom_vectorOffer_succ] at hoffer
      split at hoffer
      · cases hoffer
      · split at hoffer
        · exact Nat.lt_succ_of_lt (ih (i + 1) hoffer)
        · obtain ⟨⟨⟩, w₁, -, hrun⟩ := Exec.bind_ok hoffer
          cases hrun
          exact Nat.lt_succ_self _

theorem string_drives (bind : Value → Exec Unit) (body : Exec Outcome) :
    (stringSequence bind body).Drives List.length (stringRounds bind body) :=
  .of_offer (fun b => bind (.str [b])) rfl (fun _ _ => rfl) (fun _ _ => rfl)
    fun b _ _ _ => Exec.runFrom_bind_congr fun _ w' => (runFrom_loop_turn _ _ b w').symm

theorem list_takesHead : (listSequence fuel f).TakesHead :=
  .of_offer (fun s => Exec.setNext f s.id) rfl fun _ _ => rfl

theorem bodies_takeHead : (bodySequence fuel f).TakesHead :=
  .of_offer (fun s => Exec.setNext f s.id) rfl fun _ _ => rfl

theorem arms_takeHead {bind : Exec Unit} : (armSequence fuel f bind).TakesHead :=
  .of_offer (fun _ => bind) rfl fun _ _ => rfl

theorem string_takesHead : (stringSequence bind body).TakesHead :=
  .of_offer (fun b => bind (.str [b])) rfl fun _ _ => rfl

/-! ### Between the parts

To prepare a part is to evaluate a test or to bind variables, and keeps to what
these keep to. -/

section

open Exec (Keeps)

variable {R : World → World → Prop} [IsPreorder World R]

theorem childOffer_keeps (hnext : ∀ s, Keeps R (Exec.setNext f s)) (ss : List Stmt) :
    Keeps R (childOffer f ss) := by
  cases ss with
  | nil => exact .pure _
  | cons s rest => exact .bind (hnext _) fun _ => .pure _

theorem armOffer_keeps {bind : Exec Unit} (hbind : Keeps R bind) (cases : List Case) :
    Keeps R ((armSequence fuel f bind).offer cases) := by
  cases cases with
  | nil => exact .pure _
  | cons c rest => exact .bind hbind fun _ => .pure _

theorem whileOffer_keeps (htest : Keeps R test) (p : Nat × Nat) :
    Keeps R (whileOffer limit test p) := by
  obtain ⟨_ | b, n⟩ := p
  · exact .throw _
  · refine .bind htest fun v => ?_
    split
    · exact .pure _
    · split
      · exact .throw _
      · exact .pure _

theorem tableOffer_keeps (r : TableRef) {bind : List Value → Option Value → Exec Unit}
    (hbind : ∀ index v, Keeps R (bind index v)) (keys : List Key) :
    Keeps R (tableOffer r bind keys) := by
  induction keys with
  | nil => exact .pure _
  | cons k rest ih =>
    refine .bind .heap fun h => ?_
    dsimp only
    split
    · exact ih
    · exact .bind (.ofAbort _) fun index => .bind (hbind _ _) fun _ => .pure _

theorem vectorOffer_keeps (r : VecRef) (hbind : ∀ v, Keeps R (bind v)) (b i : Nat) :
    Keeps R (vectorOffer r bind b i) := by
  induction b generalizing i with
  | zero => exact .throw _
  | succ b ih =>
    refine .bind .heap fun h => ?_
    dsimp only
    split
    · exact .pure _
    · split
      · exact ih _
      · exact .bind (hbind _) fun _ => .pure _

theorem stringOffer_keeps (hbind : ∀ v, Keeps R (bind v)) (bytes : Bytes) :
    Keeps R (stringOffer bind bytes) := by
  cases bytes with
  | nil => exact .pure _
  | cons b rest => exact .bind (hbind _) fun _ => .pure _

end

/-! ## The traces of statements -/

/-- Answer and world of a statement that passes on the outcome of a sequence
changed. -/
def ended (g : Outcome → Outcome) (r : Except Stop Outcome × World) : Except Stop Outcome × World :=
  (r.1.map g, r.2)

theorem exists_list_trace (fuel : Nat) (f : FrameRef) (i : StmtInfo) (ss : List Stmt) (w : World) :
    ∃ ρs ending w', (listSequence fuel f).Trace ss ((Exec.visit i).leaves w) ρs ending w' ∧
      ((Stmt.list i ss).exec fuel f).runFrom w =
        (listSequence fuel f).result .next ρs w' ending := by
  obtain ⟨ρs, ending, w', htrace, hrun⟩ :=
    (list_drives fuel f).exists_trace ss .next ((Exec.visit i).leaves w)
  refine ⟨ρs, ending, w', htrace, ?_⟩
  rw [exec, ← hrun]
  refine (Exec.runFrom_bind_of_ok rfl).trans ?_
  cases ss <;> rfl

theorem exists_while_trace (fuel : Nat) (f : FrameRef) (i : StmtInfo) (test : Expr) (body : Stmt)
    (w : World) :
    ∃ ρs ending w',
      (whileSequence w.limits.maxLoopRounds (test.eval f) (body.exec fuel f)).Trace (fuel, 0)
        ((Exec.visit i).leaves w) ρs ending w' ∧
      ((Stmt.while i test body).exec fuel f).runFrom w = ended Outcome.afterLoop
        ((whileSequence w.limits.maxLoopRounds (test.eval f) (body.exec fuel f)).result .next ρs w'
          ending) := by
  obtain ⟨ρs, ending, w', htrace, hrun⟩ := (while_drives w.limits.maxLoopRounds (test.eval f)
    (body.exec fuel f)).exists_trace (fuel, 0) .next ((Exec.visit i).leaves w)
  refine ⟨ρs, ending, w', htrace, ?_⟩
  rw [exec, ← hrun]
  refine (Exec.runFrom_bind_of_ok rfl).trans ((Exec.runFrom_bind_of_ok rfl).trans ?_)
  exact Exec.runFrom_bind_pure _ _ _

theorem exists_arm_trace (fuel : Nat) {i : StmtInfo} {selector : Expr} (cases : List Case)
    {dispatch : Dispatch} {arm : Nat} {binding : Option Ident}
    (hselector : (selector.eval f).runFrom ((Exec.visit i).leaves w) = (.ok v, w₁))
    (hfind : dispatch.find w₁.heap selector.ty v = .ok (some arm, binding)) :
    ∃ ρs ending w',
      (armSequence fuel f (bindCase f v binding)).Trace (cases.drop arm) w₁ ρs ending w' ∧
      ((Stmt.switch i selector cases dispatch).exec fuel f).runFrom w = ended Outcome.afterSwitch
        ((armSequence fuel f (bindCase f v binding)).result .next ρs w' ending) := by
  obtain ⟨ρs, ending, w', htrace, hrun⟩ :=
    (arms_drive fuel f (bindCase f v binding)).exists_trace (cases.drop arm) .next w₁
  refine ⟨ρs, ending, w', htrace, ?_⟩
  rw [exec, ← hrun, ← execCases_eq_drop]
  refine (Exec.runFrom_bind_of_ok rfl).trans ((Exec.runFrom_bind_of_ok hselector).trans
    ((Exec.runFrom_bind_of_ok rfl).trans ?_))
  rw [hfind]
  exact Exec.runFrom_bind_pure _ _ _

section

variable {i : StmtInfo} (valueVar : Option Ident) {target : Expr} (body : Stmt)

/-- A loop goes on with its rounds once the value is known. -/
theorem runFrom_exec_for (fuel : Nat) (vars : List Ident)
    (htarget : (target.eval f).runFrom ((Exec.visit i).leaves w) = (.ok v, w₁)) :
    ((Stmt.for i vars valueVar target body).exec fuel f).runFrom w = ended Outcome.afterLoop
      ((forRounds fuel f vars valueVar v (body.exec fuel f)).runFrom w₁) := by
  rw [exec]
  refine (Exec.runFrom_bind_of_ok rfl).trans ((Exec.runFrom_bind_of_ok htarget).trans ?_)
  exact Exec.runFrom_bind_pure _ _ _

theorem exists_table_trace (fuel : Nat) (vars : List Ident)
    (htarget : (target.eval f).runFrom ((Exec.visit i).leaves w) = (.ok (.table r), w₁)) :
    ∃ ρs ending w',
      (tableSequence r (bindEntry f vars valueVar) (body.exec fuel f)).Trace
        (w₁.heap.table r).keys ((Exec.modifyTable r Table.enter).leaves w₁) ρs ending w' ∧
      ((Stmt.for i vars valueVar target body).exec fuel f).runFrom w = ended Outcome.afterLoop
        ((tableSequence r (bindEntry f vars valueVar) (body.exec fuel f)).result .next ρs w'
          ending) := by
  obtain ⟨ρs, ending, w', htrace, hrun⟩ :=
    (table_drives r (bindEntry f vars valueVar) (body.exec fuel f)).exists_trace
      (w₁.heap.table r).keys .next ((Exec.modifyTable r Table.enter).leaves w₁)
  refine ⟨ρs, ending, w', htrace, ?_⟩
  rw [runFrom_exec_for valueVar body fuel _ htarget, ← hrun]
  rfl

theorem exists_vector_trace (fuel : Nat) (var : Ident) {r : VecRef}
    (htarget : (target.eval f).runFrom ((Exec.visit i).leaves w) = (.ok (.vector r), w₁)) :
    ∃ ρs ending w',
      (vectorSequence r (fun v => Exec.writeSlot f var.slot (v.coerce var.ty))
        (body.exec fuel f)).Trace (fuel, 0) w₁ ρs ending w' ∧
      ((Stmt.for i [var] valueVar target body).exec fuel f).runFrom w = ended Outcome.afterLoop
        ((vectorSequence r (fun v => Exec.writeSlot f var.slot (v.coerce var.ty))
          (body.exec fuel f)).result .next ρs w' ending) := by
  obtain ⟨ρs, ending, w', htrace, hrun⟩ :=
    (vector_drives r (fun v => Exec.writeSlot f var.slot (v.coerce var.ty))
      (body.exec fuel f)).exists_trace (fuel, 0) .next w₁
  refine ⟨ρs, ending, w', htrace, ?_⟩
  rw [runFrom_exec_for valueVar body fuel _ htarget, ← hrun]
  rfl

theorem exists_string_trace (fuel : Nat) (var : Ident) {bytes : Bytes}
    (htarget : (target.eval f).runFrom ((Exec.visit i).leaves w) = (.ok (.str bytes), w₁)) :
    ∃ ρs ending w',
      (stringSequence (Exec.writeSlot f var.slot) (body.exec fuel f)).Trace bytes w₁ ρs ending w' ∧
      ((Stmt.for i [var] valueVar target body).exec fuel f).runFrom w = ended Outcome.afterLoop
        ((stringSequence (Exec.writeSlot f var.slot) (body.exec fuel f)).result .next ρs w'
          ending) := by
  obtain ⟨ρs, ending, w', htrace, hrun⟩ :=
    (string_drives (Exec.writeSlot f var.slot) (body.exec fuel f)).exists_trace bytes .next w₁
  refine ⟨ρs, ending, w', htrace, ?_⟩
  rw [runFrom_exec_for valueVar body fuel _ htarget, ← hrun]
  rfl

end

/-! ## Parts and what is below them -/

/-- Started in `w`, a loop over a value enters its body in this world. -/
inductive Iterates (fuel : Nat) (f : FrameRef) (valueVar : Option Ident) (body : Exec Outcome) :
    List Ident → Value → World → World → Prop where
  | table {vars r w w' ρs ρ ending}
      (h : (tableSequence r (bindEntry f vars valueVar) body).Trace (w.heap.table r).keys
        ((Exec.modifyTable r Table.enter).leaves w) ρs ending w') (hρ : ρ ∈ ρs) :
      Iterates fuel f valueVar body vars (.table r) w ρ.entry
  | vector {var r w w' ρs ρ ending}
      (h : (vectorSequence r (fun v => Exec.writeSlot f var.slot (v.coerce var.ty)) body).Trace
        (fuel, 0) w ρs ending w') (hρ : ρ ∈ ρs) :
      Iterates fuel f valueVar body [var] (.vector r) w ρ.entry
  | string {var bytes w w' ρs ρ ending}
      (h : (stringSequence (Exec.writeSlot f var.slot) body).Trace bytes w ρs ending w')
      (hρ : ρ ∈ ρs) : Iterates fuel f valueVar body [var] (.str bytes) w ρ.entry

/-- Started in `w`, the statement executes this part of it in this world. -/
inductive Performs (fuel : Nat) (f : FrameRef) (w : World) : Stmt → Stmt → World → Prop where
  | list {i ss w' ρs ρ ending}
      (h : (listSequence fuel f).Trace ss ((Exec.visit i).leaves w) ρs ending w') (hρ : ρ ∈ ρs) :
      Performs fuel f w (.list i ss) ρ.visited ρ.entry
  | bodyList {i ss w' ρs ρ ending}
      (h : (bodySequence fuel f).Trace ss ((Exec.visit i).leaves w) ρs ending w') (hρ : ρ ∈ ρs) :
      Performs fuel f w (.bodyList i ss) ρ.visited ρ.entry
  | cond {i test thenBody elseBody branch v w₁}
      (htest : (test.eval f).runFrom ((Exec.visit i).leaves w) = (.ok v, w₁))
      (hbranch : branch = if v.isZero then elseBody else thenBody) :
      Performs fuel f w (.cond i test thenBody elseBody) branch
        ((Exec.setNext f branch.id).leaves w₁)
  | «while» {i test body w' ρs ρ ending}
      (h : (whileSequence w.limits.maxLoopRounds (test.eval f) (body.exec fuel f)).Trace (fuel, 0)
        ((Exec.visit i).leaves w) ρs ending w') (hρ : ρ ∈ ρs) :
      Performs fuel f w (.while i test body) body ρ.entry
  | «for» {i vars valueVar target body v w₁ w₂}
      (htarget : (target.eval f).runFrom ((Exec.visit i).leaves w) = (.ok v, w₁))
      (h : Iterates fuel f valueVar (body.exec fuel f) vars v w₁ w₂) :
      Performs fuel f w (.for i vars valueVar target body) body w₂
  | switch {i selector cases dispatch v arm binding w₁ w' ρs ρ ending}
      (hselector : (selector.eval f).runFrom ((Exec.visit i).leaves w) = (.ok v, w₁))
      (hfind : dispatch.find w₁.heap selector.ty v = .ok (some arm, binding))
      (h : (armSequence fuel f (bindCase f v binding)).Trace (cases.drop arm) w₁ ρs ending w')
      (hρ : ρ ∈ ρs) : Performs fuel f w (.switch i selector cases dispatch) ρ.visited.body ρ.entry

/-- Started in `w`, the statement executes another one at or below it in the
world `w₁`. -/
inductive Reaches (fuel : Nat) (f : FrameRef) : Stmt → World → Stmt → World → Prop where
  | self {s : Stmt} {w : World} : Reaches fuel f s w s w
  | part {s t u : Stmt} {w w₁ w₂ : World} (h : s.Performs fuel f w t w₁)
      (hbelow : Reaches fuel f t w₁ u w₂) : Reaches fuel f s w u w₂

section

variable {f : FrameRef} {fuel : Nat} {s t : Stmt} {w w₁ : World}

/-- What is executed is a part of the statement. -/
theorem Performs.mem_parts (h : s.Performs fuel f w t w₁) : t ∈ s.parts := by
  cases h with
  | list h hρ => exact (h.visited_isPrefix list_takesHead).subset (List.mem_map_of_mem hρ)
  | bodyList h hρ => exact (h.visited_isPrefix bodies_takeHead).subset (List.mem_map_of_mem hρ)
  | cond _ hbranch =>
    rw [hbranch, parts]
    split <;> simp
  | «while» | «for» => exact List.mem_singleton_self _
  | switch _ _ h hρ =>
    have hcase := (h.visited_isPrefix arms_takeHead).subset (List.mem_map_of_mem hρ)
    exact List.mem_map_of_mem (List.mem_of_mem_drop hcase)

theorem Performs.preorder_subset (h : s.Performs fuel f w t w₁) : t.preorder ⊆ s.preorder :=
  Stmt.preorder_subset (children_subset s.self_mem_preorder (s.parts_subset_children h.mem_parts))

end

end Stmt

end Vigil
