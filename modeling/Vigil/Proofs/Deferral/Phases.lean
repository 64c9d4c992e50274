import Vigil.Proofs.Exec.Steps

/-!
# Vigil.Proofs.Deferral.Phases — a run before and after a deferral

A run has two phases. Up to the point where the result of its frame is
deferred a computation `Enters`; what is left of it afterwards `Resumes`. Each
of them tells the first statement to start after the deferral, and the rules
for sequences put the two together. Every statement enters the journal before
it does anything else, so what is resumed is known from the first statement in
line (`Begins`).
-/

namespace Vigil

open Relation (ReflTransGen)

variable {w : World} {f : FrameRef}

/-! ## The log of a run -/

/-- The statement that started, in a note about that. -/
def Entry.started? : Entry → Option StmtId
  | .start s _ => some s
  | .look .. | .body .. | .defer .. => none

/-- Whether the note says that the result of this frame was deferred. -/
def Entry.isDeferral (f : FrameRef) : Entry → Bool
  | .defer g _ => g = f
  | .start .. | .look .. | .body .. => false

/-- Statements started, in order. -/
def started (log : List Entry) : List StmtId := log.filterMap Entry.started?

/-- Statements started after the result of a frame was first deferred. -/
def startedSince (f : FrameRef) : List Entry → List StmtId
  | [] => []
  | e :: log => if e.isDeferral f then started log else startedSince f log

/-- What a computation enters into the journal, the earliest first. -/
def Exec.log {α : Type} (x : Exec α) (w : World) : List Entry :=
  ((x.leaves w).journal.take ((x.leaves w).journal.length - w.journal.length)).reverse

theorem Exec.log_eq {α : Type} {x : Exec α} {log : List Entry}
    (h : (x.leaves w).journal = log.reverse ++ w.journal) : x.log w = log := by
  unfold Exec.log
  simp [h]

theorem startedSince_append_of_all {log log' : List Entry} (h : ∀ e ∈ log, ¬ e.isDeferral f) :
    startedSince f (log ++ log') = startedSince f log' := by
  induction log with
  | nil => rfl
  | cons e log ih =>
    rw [List.cons_append, startedSince, if_neg (h e List.mem_cons_self)]
    exact ih fun e he => h e (List.mem_cons_of_mem _ he)

theorem startedSince_append_of_exists {log log' : List Entry} (h : ∃ e ∈ log, e.isDeferral f) :
    startedSince f (log ++ log') = startedSince f log ++ started log' := by
  induction log with
  | nil => simp at h
  | cons e log ih =>
    rw [List.cons_append, startedSince, startedSince]
    by_cases he : e.isDeferral f
    · simp [he, started]
    · rw [if_neg he, if_neg he]
      refine ih ?_
      obtain ⟨e', he', hd⟩ := h
      rcases List.mem_cons.mp he' with rfl | he'
      · exact absurd hd he
      · exact ⟨e', he', hd⟩

/-! ## Phases of a run -/

namespace World

variable {f : FrameRef} {w w₁ w₂ : World} {ids : List StmtId} {d : Bool}

/-- The result of the frame is still its own. -/
structure Undeferred (f : FrameRef) (w : World) : Prop where
  hasFrame : w.HasFrame f
  delayed : (w.frame f).delayed = none

/-- The result of the frame was left to a trigger. -/
structure Deferred (f : FrameRef) (w : World) : Prop where
  hasFrame : w.HasFrame f
  delayed : (w.frame f).delayed.isSome

/-- From `w` to `w'` the journal has grown by `log`. -/
def Logged (w w' : World) (log : List Entry) : Prop := w'.journal = log.reverse ++ w.journal

theorem Logged.nil (h : w₁.journal = w.journal) : Logged w w₁ [] := h

theorem Logged.append {log log' : List Entry} (h : Logged w w₁ log) (h' : Logged w₁ w₂ log') :
    Logged w w₂ (log ++ log') := by
  unfold Logged at *
  rw [h', h, List.reverse_append, List.append_assoc]

/-- Steps go on with the journal and take no deferral back. -/
theorem deferred_of_steps (h : ReflTransGen (Step f) w w₁) (hw : Deferred f w) :
    Deferred f w₁ ∧ ∃ log, Logged w w₁ log := by
  induction h with
  | refl => exact ⟨hw, [], .nil rfl⟩
  | tail _ hs ih =>
    obtain ⟨hd, log, hlog⟩ := ih
    obtain ⟨new, hnew⟩ := hs.journal
    refine ⟨⟨(hs.hasFrame f).mpr hd.hasFrame, hs.delayed hd.delayed⟩, log ++ new.reverse,
      hlog.append ?_⟩
    unfold Logged
    rw [List.reverse_reverse, hnew]

/-- What was done in a frame with a deferred result: the first statement to
start is one of `ids`. -/
def Resumed (f : FrameRef) (ids : List StmtId) (w w' : World) : Prop :=
  Deferred f w' ∧ ∃ log, Logged w w' log ∧ ∀ id ∈ (started log).head?, id ∈ ids

/-- What was done in a frame with a result of its own: that stays so, or the
result is deferred and the first statement to start afterwards is one of
`ids`. The latter only happens if `d` is set. -/
def Entered (f : FrameRef) (d : Bool) (ids : List StmtId) (w w' : World) : Prop :=
  ∃ log, Logged w w' log ∧
    (Undeferred f w' ∧ (∀ e ∈ log, ¬ e.isDeferral f) ∨
      d = true ∧ Deferred f w' ∧ (∃ e ∈ log, e.isDeferral f) ∧
        ∀ id ∈ (startedSince f log).head?, id ∈ ids)

theorem started_append (log log' : List Entry) :
    started (log ++ log') = started log ++ started log' :=
  List.filterMap_append

theorem Resumed.trans (h : Resumed f ids w w₁) (h' : Resumed f ids w₁ w₂) : Resumed f ids w w₂ := by
  obtain ⟨-, log, hlog, hids⟩ := h
  obtain ⟨hd, log', hlog', hids'⟩ := h'
  refine ⟨hd, log ++ log', hlog.append hlog', fun id hid => ?_⟩
  rw [started_append, List.head?_append, Option.mem_def, Option.or_eq_some_iff] at hid
  rcases hid with hid | ⟨-, hid⟩
  · exact hids id hid
  · exact hids' id hid

theorem Entered.trans_of_undeferred {log : List Entry} (hlog : Logged w w₁ log)
    (h : ∀ e ∈ log, ¬ e.isDeferral f) (h' : Entered f d ids w₁ w₂) : Entered f d ids w w₂ := by
  obtain ⟨log', hlog', h'⟩ := h'
  refine ⟨log ++ log', hlog.append hlog', ?_⟩
  rcases h' with ⟨hu, hnone⟩ | ⟨hd, hdef, ⟨e, he, hed⟩, hids⟩
  · refine .inl ⟨hu, fun e he => ?_⟩
    rcases List.mem_append.mp he with he | he
    · exact h e he
    · exact hnone e he
  · refine .inr ⟨hd, hdef, ⟨e, List.mem_append_right _ he, hed⟩, ?_⟩
    rw [startedSince_append_of_all h]
    exact hids

theorem Entered.trans_of_deferred {log : List Entry} (hlog : Logged w w₁ log) (hd : d = true)
    (h : ∃ e ∈ log, e.isDeferral f) (hids : ∀ id ∈ (startedSince f log).head?, id ∈ ids)
    (h' : Resumed f ids w₁ w₂) :
    Entered f d ids w w₂ := by
  obtain ⟨hdef, log', hlog', hids'⟩ := h'
  obtain ⟨e, he, hed⟩ := h
  refine ⟨log ++ log', hlog.append hlog', .inr ⟨hd, hdef, ⟨e, List.mem_append_left _ he, hed⟩, ?_⟩⟩
  intro id hid
  -- the first statement since the deferral is in the first part, or the first of the second
  rw [startedSince_append_of_exists ⟨e, he, hed⟩, List.head?_append, Option.mem_def,
    Option.or_eq_some_iff] at hid
  rcases hid with hid | ⟨-, hid⟩
  · exact hids id hid
  · exact hids' id hid

end World

/-! ## Phases of computations -/

namespace Exec

open World (Undeferred Deferred Logged Resumed Entered)

variable {α β : Type} {f : FrameRef} {d : Bool} {ids ids' : List StmtId} {x : Exec α}
  {k : α → Exec β} {recover : Fault → Exec α} {p : Prop}

/-- `x` enters nothing into the journal and defers nothing. -/
def Calm (f : FrameRef) (x : Exec α) : Prop :=
  ∀ w, (x.leaves w).journal = w.journal ∧
    ((x.leaves w).frame f).delayed = (w.frame f).delayed ∧
    ((x.leaves w).HasFrame f ↔ w.HasFrame f)

/-- In a frame with a deferred result, the first statement `x` starts is one of
`ids`. -/
def Resumes (f : FrameRef) (ids : List StmtId) (x : Exec α) : Prop :=
  ∀ w, Deferred f w → Resumed f ids w (x.leaves w)

/-- In a frame with a deferred result, `x` does start a statement, first one of
`ids`. -/
def Begins (f : FrameRef) (ids : List StmtId) (x : Exec α) : Prop :=
  ∀ w, Deferred f w → Deferred f (x.leaves w) ∧
    ∃ log, Logged w (x.leaves w) log ∧ ∃ id ∈ ids, (started log).head? = some id

/-- In a frame with a result of its own, the first statement `x` starts after
it deferred the result is one of `ids`; unless `d` is set it does not defer. -/
def Enters (f : FrameRef) (d : Bool) (ids : List StmtId) (x : Exec α) : Prop :=
  ∀ w, Undeferred f w → Entered f d ids w (x.leaves w)

namespace Calm

theorem of_local (hx : Local f x) : Calm f x := by
  intro w
  obtain ⟨h, s, hleaves⟩ := hx.leaves_store w
  rw [hleaves]
  refine ⟨rfl, ?_, ?_⟩
  · exact World.frame_modifyFrame_field Frame.delayed (g := fun fr => { fr with slots := s })
      (fun _ => rfl) w f f
  · exact World.hasFrame_modifyFrame

theorem pure (a : α) : Calm f (pure a : Exec α) := of_local (.pure a)

theorem throw (s : Stop) : Calm f (throw s : Exec α) := fun _ => ⟨rfl, rfl, .rfl⟩

theorem ofStop (r : Except Stop α) : Calm f (ofStop r) := by
  cases r
  · exact throw _
  · exact pure _

theorem get : Calm f (get : Exec World) := fun _ => ⟨rfl, rfl, .rfl⟩

theorem setNext (s : StmtId) : Calm f (setNext f s) := fun w =>
  ⟨rfl, World.frame_modifyFrame_field Frame.delayed (g := fun fr => { fr with nextStmt := some s })
    (fun _ => rfl) w f f, World.hasFrame_modifyFrame⟩

theorem bind (hx : Calm f x) (hk : ∀ a, Calm f (k a)) :
    Calm f (x >>= k) := by
  intro w
  rcases leaves_bind x k w with h | ⟨a, h⟩ <;> rw [h]
  · exact hx w
  · obtain ⟨hj, hd, hf⟩ := hx w
    obtain ⟨hj', hd', hf'⟩ := hk a (x.leaves w)
    exact ⟨hj'.trans hj, hd'.trans hd, hf'.trans hf⟩

theorem resumes (hx : Calm f x) : Resumes f ids x := by
  intro w hw
  obtain ⟨hj, hd, hf⟩ := hx w
  exact ⟨⟨hf.mpr hw.hasFrame, hd ▸ hw.delayed⟩, [], .nil hj, fun id h => by cases h⟩

theorem enters (hx : Calm f x) : Enters f d ids x := by
  intro w hw
  obtain ⟨hj, hd, hf⟩ := hx w
  exact ⟨[], .nil hj, .inl ⟨⟨hf.mpr hw.hasFrame, hd.trans hw.delayed⟩, fun e h => by cases h⟩⟩

end Calm

theorem Moves.deferred (hx : Moves f x) (hw : Deferred f w) :
    Deferred f (x.leaves w) ∧ ∃ log, Logged w (x.leaves w) log :=
  World.deferred_of_steps (hx w) hw

namespace Begins

/-- Whatever starts with a statement is known by it. -/
theorem visit (i : StmtInfo) {k : Unit → Exec β} (hk : ∀ a, Moves f (k a)) :
    Begins f [i.id] (Exec.visit i >>= k) := by
  intro w hw
  have h : (Exec.visit i >>= k).leaves w =
      (k ()).leaves { w with journal := .start i.id w.now :: w.journal } := by
    unfold leaves
    rw [runFrom_bind, runFrom_visit]
  have hw₁ : Deferred f { w with journal := .start i.id w.now :: w.journal } :=
    ⟨hw.hasFrame, hw.delayed⟩
  obtain ⟨hd, log, hlog⟩ := (hk ()).deferred hw₁
  have hfirst : Logged w { w with journal := .start i.id w.now :: w.journal }
      [.start i.id w.now] := rfl
  rw [h]
  exact ⟨hd, _, hfirst.append hlog, i.id, List.mem_singleton_self _, rfl⟩

theorem bind (hx : Begins f ids x) (hk : ∀ a, Moves f (k a)) :
    Begins f ids (x >>= k) := by
  intro w hw
  obtain ⟨hd, log, hlog, id, hid, hfirst⟩ := hx w hw
  rcases leaves_bind x k w with h | ⟨a, h⟩ <;> rw [h]
  · exact ⟨hd, log, hlog, id, hid, hfirst⟩
  · obtain ⟨hd', log', hlog'⟩ := (hk a).deferred hd
    refine ⟨hd', log ++ log', hlog.append hlog', id, hid, ?_⟩
    rw [World.started_append, List.head?_append, hfirst, Option.some_or]

theorem onFault (hx : Begins f ids x)
    (hr : ∀ e, Moves f (recover e)) : Begins f ids (onFault x recover) := by
  intro w hw
  obtain ⟨hd, log, hlog, id, hid, hfirst⟩ := hx w hw
  rcases leaves_onFault x recover w with h | ⟨e, h⟩ <;> rw [h]
  · exact ⟨hd, log, hlog, id, hid, hfirst⟩
  · obtain ⟨hd', log', hlog'⟩ := (hr e).deferred hd
    refine ⟨hd', log ++ log', hlog.append hlog', id, hid, ?_⟩
    rw [World.started_append, List.head?_append, hfirst, Option.some_or]

theorem resumes (hx : Begins f ids x) : Resumes f ids x := by
  intro w hw
  obtain ⟨hd, log, hlog, id, hid, hfirst⟩ := hx w hw
  refine ⟨hd, log, hlog, fun id' hid' => ?_⟩
  rw [hfirst, Option.mem_some_iff] at hid'
  exact hid' ▸ hid

theorem mono (hx : Begins f ids x) (h : ids ⊆ ids') : Begins f ids' x := by
  intro w hw
  obtain ⟨hd, log, hlog, id, hid, hfirst⟩ := hx w hw
  exact ⟨hd, log, hlog, id, h hid, hfirst⟩

end Begins

theorem Resumes.mono (hx : Resumes f ids x) (h : ids ⊆ ids') : Resumes f ids' x := by
  intro w hw
  obtain ⟨hd, log, hlog, hids⟩ := hx w hw
  exact ⟨hd, log, hlog, fun id hid => h (hids id hid)⟩

theorem Resumes.ite [Decidable p] {x y : Exec α} (hx : Resumes f ids x) (hy : Resumes f ids y) :
    Resumes f ids (if p then x else y) := by
  split
  · exact hx
  · exact hy

theorem Resumes.bind (hx : Resumes f ids x)
    (hk : ∀ a, Resumes f ids (k a)) : Resumes f ids (x >>= k) := by
  intro w hw
  rcases leaves_bind x k w with h | ⟨a, h⟩ <;> rw [h]
  · exact hx w hw
  · exact (hx w hw).trans (hk a _ (hx w hw).1)

theorem Resumes.onFault (hx : Resumes f ids x)
    (hr : ∀ e, Resumes f ids (recover e)) : Resumes f ids (onFault x recover) := by
  intro w hw
  rcases leaves_onFault x recover w with h | ⟨e, h⟩ <;> rw [h]
  · exact hx w hw
  · exact (hx w hw).trans (hr e _ (hx w hw).1)

namespace Enters

/-- Where the first part may have deferred the result, the second resumes. -/
theorem bind {d₁ : Bool} (hx : Enters f d₁ ids x)
    (hd : d₁ = true → d = true) (hk : ∀ a, Enters f d ids (k a))
    (hr : d₁ = true → ∀ a, Resumes f ids (k a)) : Enters f d ids (x >>= k) := by
  intro w hw
  obtain ⟨log, hlog, h₁⟩ := hx w hw
  rcases leaves_bind x k w with h | ⟨a, h⟩ <;> rw [h]
  · exact ⟨log, hlog, h₁.imp_right fun h => ⟨hd h.1, h.2⟩⟩
  · -- the second part starts undeferred, or resumes what the first deferred
    rcases h₁ with ⟨hu, hnone⟩ | ⟨hd₁, hdef, hsome, hids⟩
    · exact .trans_of_undeferred hlog hnone (hk a _ hu)
    · exact .trans_of_deferred hlog (hd hd₁) hsome hids (hr hd₁ a _ hdef)

theorem onFault (hx : Enters f d ids x)
    (hk : ∀ e, Enters f d ids (recover e)) (hr : d = true → ∀ e, Resumes f ids (recover e)) :
    Enters f d ids (onFault x recover) := by
  intro w hw
  obtain ⟨log, hlog, h₁⟩ := hx w hw
  rcases leaves_onFault x recover w with h | ⟨e, h⟩ <;> rw [h]
  · exact ⟨log, hlog, h₁⟩
  · rcases h₁ with ⟨hu, hnone⟩ | ⟨hd₁, hdef, hsome, hids⟩
    · exact .trans_of_undeferred hlog hnone (hk e _ hu)
    · exact .trans_of_deferred hlog hd₁ hsome hids (hr hd₁ e _ hdef)

/-- Calm computations first. -/
theorem after_calm (hx : Calm f x)
    (hk : ∀ a, Enters f d ids (k a)) : Enters f d ids (x >>= k) :=
  bind (show Enters f false ids x from hx.enters) nofun hk nofun

/-- Calm computations last. -/
theorem before_calm (hx : Enters f d ids x)
    (hk : ∀ a, Calm f (k a)) : Enters f d ids (x >>= k) :=
  bind hx (fun h => h) (fun a => (hk a).enters) fun _ a => (hk a).resumes

theorem mono {d' : Bool} (hx : Enters f d ids x) (hd : d = true → d' = true)
    (h : d = true → ids ⊆ ids') : Enters f d' ids' x := by
  intro w hw
  obtain ⟨log, hlog, h₁⟩ := hx w hw
  refine ⟨log, hlog, h₁.imp_right fun ⟨hd₁, hdef, hsome, hids⟩ => ?_⟩
  exact ⟨hd hd₁, hdef, hsome, fun id hid => h hd₁ (hids id hid)⟩

theorem ite [Decidable p] {x y : Exec α} (hx : Enters f d ids x) (hy : Enters f d ids y) :
    Enters f d ids (if p then x else y) := by
  split
  · exact hx
  · exact hy

theorem visit (i : StmtInfo) : Enters f d ids (visit i) := fun w hw =>
  ⟨[.start i.id w.now], rfl, .inl ⟨⟨hw.hasFrame, hw.delayed⟩, fun e he => by
    rw [List.mem_singleton.mp he]
    exact Bool.false_ne_true⟩⟩

end Enters

/-- `x` goes on as well when the result is deferred already, if that may happen. -/
structure Continues (f : FrameRef) (d : Bool) (ids : List StmtId) (x : Exec α) : Prop where
  enters : Enters f d ids x
  resumes : d = true → Resumes f ids x

theorem Calm.continues (hx : Calm f x) : Continues f d ids x :=
  ⟨hx.enters, fun _ => hx.resumes⟩

/-- Loops go on from round to round, so they do what their bodies do. -/
theorem Continues.sequential : Sequential (Continues f d ids) where
  still hx := Calm.continues fun w => by
    rw [hx w]
    exact ⟨rfl, rfl, .rfl⟩
  bind hx hk := ⟨hx.enters.bind (fun h => h) (fun a => (hk a).enters) fun hd a => (hk a).resumes hd,
    fun hd => (hx.resumes hd).bind fun a => (hk a).resumes hd⟩
  onFault hx hr := ⟨hx.enters.onFault (fun e => (hr e).enters) fun hd e => (hr e).resumes hd,
    fun hd => (hx.resumes hd).onFault fun e => (hr e).resumes hd⟩

/-- Whatever a loop goes over. -/
theorem Continues.forRounds (fuel : Nat) (vars : List Ident) (valueVar : Option Ident)
    (target : Value) {body : Exec Outcome} (hb : Continues f d ids body) :
    Continues f d ids (Stmt.forRounds fuel f vars valueVar target body) := by
  have hwrite : ∀ id ∈ vars ++ valueVar.toList, ∀ v, Continues f d ids (writeSlot f id.slot v) :=
    fun _ _ _ => (Calm.of_local (.writeSlot _ _)).continues
  refine (sequential.diagonal.forRounds (fun id hid v => ⟨rfl, hwrite id hid v⟩)
    (fun r => ⟨rfl, ?_⟩) (fun r _ hbind => ⟨rfl, ?_⟩) ⟨rfl, hb⟩ target).2
  · exact sequential.overTable (fun _ _ => (Calm.of_local (.modifyTable _ _)).continues) hwrite hb
  · exact sequential.vectorRounds r (fun v => (hbind v).2) hb _ _

end Exec

end Vigil
