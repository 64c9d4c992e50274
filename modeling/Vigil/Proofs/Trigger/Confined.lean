import Vigil.Proofs.Trigger.Invariant

/-!
# Vigil.Proofs.Trigger.Confined — where execution can go

A statement goes on to statements right below it, at once or, from a `when`, by
way of a trigger. A list goes no further than its first jump
(`Stmt.execList_upToJump`). So a set of statements that contains with each of its
statements all those it can go on to (`Stmt.entered`) is never left: every
statement that starts is in the set, and so is every `when` that a trigger got
its condition and bodies from (`World.Confined`). Which statements are in the set
may depend on the frame they run in. All operations of a host that runs scripts
of the set only keep this, whatever they end in (`World.EverIn.confined`).
-/

namespace Vigil

namespace Stmt

open Exec

/-! ## What a list runs -/

/-- The statements of a list up to the first jump, the jump included. -/
def upToJump : List Stmt → List Stmt
  | [] => []
  | s :: rest => if s.tag.isJump then [s] else s :: upToJump rest

/-- A jump ends the list it stands in. -/
theorem execList_jump (fuel : Nat) (f : FrameRef) {s : Stmt} (hs : s.tag.isJump)
    (rest : List Stmt) : execList fuel f (s :: rest) = execList fuel f [s] := by
  rw [execList, execList]
  cases s with
  | next i | «break» i | fallthrough i => simp [exec, Outcome.ofFlow]
  | «return» i value => cases value <;> simp [exec, Outcome.ofFlow]
  | _ => cases hs

theorem execList_upToJump (fuel : Nat) (f : FrameRef) (body : List Stmt) :
    execList fuel f (upToJump body) = execList fuel f body := by
  induction body with
  | nil => rfl
  | cons s rest ih =>
    rw [upToJump]
    by_cases hs : s.tag.isJump
    · rw [if_pos hs]
      exact (execList_jump fuel f hs rest).symm
    · rw [if_neg hs, execList, execList, ih]

/-- The statements a statement can go on to. -/
def entered : Stmt → List Stmt
  | .list _ body => upToJump body
  | s => s.children

theorem upToJump_subset (body : List Stmt) : upToJump body ⊆ body := by
  induction body with
  | nil => exact List.nil_subset _
  | cons s rest ih =>
    rw [upToJump]
    split
    · exact List.cons_subset_cons s (List.nil_subset _)
    · exact List.cons_subset_cons s ih

theorem entered_subset (s : Stmt) : s.entered ⊆ s.children := by
  cases s with
  | list i body => exact upToJump_subset body
  | _ => exact List.Subset.refl _

end Stmt

namespace World

open Exec (Keeps Local)

variable {s : Stmt} {c : Captured} {i : StmtInfo}

/-- Every statement that started is in the set, and all that triggers hold was
left to them by a `when` that is in it. -/
structure Confined (P : FrameRef → Stmt → Prop) (w : World) : Prop where
  started : ∀ i time, Entry.start i time ∈ w.journal → ∃ f s, P f s ∧ s.id = i
  held : ∀ t c, (w.trigger t).captured = some c → ∃ i timeout isReturn,
    P c.frame (.when i c.cond c.body timeout c.timeoutBody isReturn)

/-- The set contains what each of its statements can go on to. -/
def Closed (P : FrameRef → Stmt → Prop) : Prop := ∀ f s, P f s → ∀ t ∈ s.entered, P f t

/-- An engine that was confined to the set is so afterwards. -/
abbrev Stays (P : FrameRef → Stmt → Prop) : World → World → Prop := Preserves (Confined P)

variable {P : FrameRef → Stmt → Prop} {w w' : World} {f : FrameRef} {fuel : Nat}

theorem confined_start (now : Instant) (limits : Limits) : (World.start now limits).Confined P := by
  constructor
  · intro i time hi
    cases hi
  · intro t c hc
    have hnone : ((World.start now limits).trigger t).captured = none := rfl
    rw [hnone] at hc
    cases hc

/-- Only new starts, and what triggers hold more than before, matter. -/
theorem Confined.of_less (h : w.Confined P)
    (hjournal : ∀ i time, Entry.start i time ∈ w'.journal → Entry.start i time ∈ w.journal)
    (hheld : ∀ t c, (w'.trigger t).captured = some c → (w.trigger t).captured = some c) :
    w'.Confined P :=
  ⟨fun i time hi => h.started i time (hjournal i time hi), fun t c hc => h.held t c (hheld t c hc)⟩

theorem Confined.visit (h : w.Confined P) (hs : P f s) :
    ({ w with journal := .start s.id w.now :: w.journal } : World).Confined P := by
  refine ⟨fun i time hi => ?_, h.held⟩
  rcases List.mem_cons.mp hi with heq | hold
  · cases heq
    exact ⟨f, s, hs, rfl⟩
  · exact h.started i time hold

theorem Confined.install (h : w.Confined P) {timeout : Option Expr} {isReturn : Bool}
    (hc : P c.frame (.when i c.cond c.body timeout c.timeoutBody isReturn))
    (deadline : Option Instant) (span : Span) :
    (w.install c deadline isReturn span).Confined P := by
  have hinstall := install_eq c deadline isReturn span w
  have hpush : (w.install c deadline isReturn span).triggers =
      w.triggers.push (w.installed c deadline isReturn span) := by rw [hinstall]
  constructor
  · intro j time hj
    rw [hinstall] at hj
    refine h.started j time ?_
    cases isReturn <;> simpa using hj
  · intro t d hd
    by_cases ht : t = w.nextTrigger
    · rw [ht, trigger_push_self hpush, installed] at hd
      dsimp only at hd
      split at hd
      · cases hd
        exact ⟨i, timeout, isReturn, hc⟩
      · cases hd
    · rw [trigger_push_of_ne hpush ht] at hd
      exact h.held t d hd

/-- A body that a trigger holds is in the set. -/
theorem Confined.body (h : w.Confined P) (hP : Closed P) {t : TriggerRef} {state : TriggerState}
    {b : Stmt} (hc : (w.trigger t).captured = some c) (hb : c.bodyFor state = some b) :
    P c.frame b := by
  obtain ⟨i, timeout, isReturn, hwhen⟩ := h.held t c hc
  refine hP c.frame _ hwhen b ?_
  cases state with
  | fired =>
    cases hb
    exact List.mem_cons_self
  | timedOut => exact List.mem_cons_of_mem _ (Option.mem_toList.mpr hb)
  | pending | cancelled => cases hb

/-! ## Executions -/

theorem stays_of_local {α : Type} {x : Exec α} (hx : Local f x) : Keeps (Stays P) x := by
  intro w h
  obtain ⟨heap, slots, hleaves⟩ := hx.leaves_store w
  rw [hleaves]
  exact h.of_less (fun _ _ hi => hi) fun _ _ hc => hc

theorem stays_rules : Stmt.StoreRules f fun x _ => Keeps (Stays P) x where
  bind := .bind
  onFault := .onFault
  fault := .fault
  clock hk := .bind .get fun w => hk w w rfl
  setNext _ _ h := h.of_less (fun _ _ hi => hi) fun _ _ hc => hc
  raise _ _ _ h := h.of_less (fun _ _ hi => hi) fun _ _ hc => hc
  table _ _ _ := stays_of_local (f := f) (.modifyTable _ _)
  store _ hx := stays_of_local hx

theorem stays_install (hs : P f s) (htag : s.tag = .when) : Keeps (Stays P) (s.act fuel f) := by
  cases s with
  | «when» i test body timeout timeoutBody isReturn =>
    refine .bind (.bind (stays_rules.deadline timeout) fun limit => ?_) fun _ => .pure _
    intro w h
    exact h.install (c := ⟨test, body, timeoutBody, f⟩) hs limit i.span
  | _ => cases htag

theorem stays_list (hP : Closed P) {body : List Stmt} (hs : P f (.list i body))
    (hbody : ∀ t ∈ body, P f t → Keeps (Stays P) (t.exec fuel f)) :
    Keeps (Stays P) (Stmt.act fuel f (.list i body)) := by
  have hentered : ∀ t ∈ Stmt.upToJump body, Keeps (Stays P) (t.exec fuel f) := fun t ht =>
    hbody t (Stmt.upToJump_subset body ht) (hP f _ hs t ht)
  rw [Stmt.act, ← Stmt.execList_upToJump]
  exact @Stmt.Rules.execList fuel fuel f (fun x _ => Keeps (Stays P) x) (fun s => s)
    stays_rules.toRules (.hasDelayed f) (fun _ => rfl) _ hentered

theorem stays_congruence (hP : Closed P) :
    Stmt.Congruence (P f) (fun s => s) fuel fuel f fun x _ => Keeps (Stays P) x where
  toRules := stays_rules.toRules
  parts s hs htag t ht := by
    refine hP f s hs t ?_
    cases s with
    | list => exact absurd rfl htag
    | _ => exact Stmt.parts_subset_children _ ht
  info _ := rfl
  shape s _ _ := s.mapParts_self.symm
  visit _ hs _ h := h.visit hs
  eval _ _ e _ := stays_rules.eval e
  addTo _ e _ := stays_of_local (e.addTo_local f)
  deleteFrom _ e _ := stays_of_local (e.deleteFrom_local f)
  list _ _ hs hbody := stays_list hP hs hbody
  install _ hs htag := stays_install hs htag
  print _ args _ := .bind (stays_rules.evalList args) fun _ => .bind .heap fun _ =>
    .bind (.ofStop _) fun _ _ h => h.of_less (fun _ _ hi => hi) fun _ _ hc => hc
  whileLoop htest hb := .bind .get fun _ => Keeps.sequential.whileRounds htest hb _ _
  vectorLoop r _ _ _ hbind hb := Keeps.sequential.vectorRounds r hbind hb _ _

/-- A statement of a closed set starts only statements of the set, and leaves
to triggers only what `when`s of the set do. -/
theorem exec_confined (hP : Closed P) (fuel : Nat) (hs : P f s) :
    Keeps (Stays P) (s.exec fuel f) := (stays_congruence hP).exec hs

/-! ## Operations -/

theorem Confined.clerical (h : w.Confined P) {g : World → World} (hg : Clerical g) :
    (g w).Confined P := by
  refine h.of_less ?_ (hg.held w)
  obtain ⟨_, _, _, _, _, _, _, heq⟩ := hg.kept w
  rw [heq]
  exact fun _ _ hi => hi

theorem Confined.note (h : w.Confined P) {e : Entry} (he : ∀ i, e.startOf? i = none) :
    ({ w with journal := e :: w.journal } : World).Confined P := by
  refine h.of_less (fun i time hi => ?_) fun _ _ hc => hc
  rcases List.mem_cons.mp hi with rfl | hold
  · have hi := he i
    simp [Entry.startOf?] at hi
  · exact hold

theorem invariant_confined (hP : Closed P) : Invariant P (Confined P) where
  clerical hg h := h.clerical hg
  note he h := h.note he
  visit hs h := h.visit hs
  setNext _ := stays_rules.setNext
  enter r := stays_of_local (f := ⟨0⟩) (.modifyTable r _)
  writeSlot _ i v := stays_of_local (.writeSlot i v)
  eval f e := stays_of_local (e.eval_local f)
  exec hs fuel := exec_confined hP fuel hs
  body h hc hb := h.body hP hc hb
  addFrame _ _ h := h.of_less (fun _ _ hi => hi) fun _ _ hc => hc

/-- An engine that runs only scripts of a closed set never leaves it. -/
theorem EverIn.confined (hP : Closed P) {now : Instant} {limits : Limits}
    (h : EverIn P (.start now limits) w) : w.Confined P :=
  (invariant_confined hP).everIn h (confined_start now limits)

end World

end Vigil
