import Vigil.Proofs.Exec.Guarantee
import Vigil.Proofs.Trigger.Parallel
import Vigil.Proofs.Typing.Eval

/-!
# Vigil.Proofs.Typing.Exec — typed statements execute safely

A typed statement keeps the world conforming and breaks no invariant of the
engine (`Stmt.exec_safe`): what a loop, a case or a fresh collection binds
fits its variable, and what a trigger is left with is typed. A value it reports
is that of a `return` below it, and has the type of the expression there
(`Outcome.ReturnedBy`). Passes over the waiting triggers run only such bodies,
so they are safe as well (`World.scheduled_sound`).
-/

namespace Vigil

variable {Γ : FrameRef → Layout} {f : FrameRef} {w : World} {c : Captured}

namespace Exec

variable {r : TableRef}

/-- Safe from every conforming world, whatever it yields. -/
def Sound {α : Type} (Γ : FrameRef → Layout) (x : Exec α) : Prop :=
  ∀ {w : World}, w.Conforms Γ → Safe Γ w x fun _ _ => True

/-- Safe from every conforming world, and yields only what `Q` allows. -/
def Ensures {α : Type} (Γ : FrameRef → Layout) (x : Exec α) (Q : α → World → Prop) : Prop :=
  ∀ {w : World}, w.Conforms Γ → Safe Γ w x Q

/-- What holds in a world goes on to hold in later ones. -/
def Lasts {α : Type} (Γ : FrameRef → Layout) (Q : α → World → Prop) : Prop :=
  ∀ ⦃a w w'⦄, w.Evolves Γ w' → Q a w → Q a w'

/-- Entries of the table may change in ways its type does not show. -/
theorem modifyTable_safe {g : Table → Table} (hw : w.Conforms Γ)
    (hg : (g (w.heap.table r)).Conforms w.heap)
    (hty : (g (w.heap.table r)).ty = (w.heap.table r).ty) :
    Safe Γ w (modifyTable r g) fun _ _ => True :=
  .heap_bind (setTable_safe hw hg hty)

theorem enter_safe (hw : w.Conforms Γ) : Safe Γ w (modifyTable r Table.enter) fun _ _ => True :=
  modifyTable_safe hw (hw.heap.tables r).enter rfl

theorem leave_sound : Sound Γ (modifyTable r Table.leave) :=
  fun hw => modifyTable_safe hw (hw.heap.tables _).leave rfl

end Exec

/-! ## Returned values -/

namespace Outcome

/-- A value comes from one of the statements, a `return`, and has the type of
the expression there. -/
def ReturnedBy (ss : List Stmt) (out : Outcome) (w : World) : Prop :=
  ∀ v ∈ out.value, ∃ i e, Stmt.return i (some e) ∈ ss ∧ w.heap.HasType v e.ty

namespace ReturnedBy

variable {ss ss' : List Stmt} {out : Outcome}

theorem of_value (h : out.value = none) : out.ReturnedBy ss w := by
  intro v hv
  rw [h] at hv
  cases hv

theorem next : Outcome.next.ReturnedBy ss w := .of_value rfl

theorem mono (h : out.ReturnedBy ss w) (hsub : ss ⊆ ss') : out.ReturnedBy ss' w := by
  intro v hv
  obtain ⟨i, e, hmem, htype⟩ := h v hv
  exact ⟨i, e, hsub hmem, htype⟩

/-- Values keep their types. -/
theorem lasts : Exec.Lasts Γ (ReturnedBy ss) := by
  intro out w w' hev h v hv
  obtain ⟨i, e, hmem, htype⟩ := h v hv
  exact ⟨i, e, hmem, htype.mono hev.grows⟩

/-- Loops and switches use up signals, not values. -/
theorem afterLoop (h : out.ReturnedBy ss w) : out.afterLoop.ReturnedBy ss w := h

theorem afterSwitch (h : out.ReturnedBy ss w) : out.afterSwitch.ReturnedBy ss w := h

end ReturnedBy

end Outcome

namespace Stmt

open Exec (Safe Sound Ensures Lasts)

open Outcome (ReturnedBy)

variable {v : Value} {ty : Ty} {vals : List Value} {fuel : Nat}

/-! ## Loops -/

section Rounds

variable {vars : List Ident} {valueVar : Option Ident} {var : Ident}

-- what a loop reports its last round did, so it lasts until the loop is over
variable {Q : Outcome → World → Prop} {body : Exec Outcome}

theorem whileRounds_safe {limit : Option Nat} {test : Exec Value} (hQ : Lasts Γ Q)
    (htest : Sound Γ test) (hbody : Ensures Γ body Q) :
    ∀ {fuel rounds : Nat} {last : Outcome} {w : World}, w.Conforms Γ → Q last w →
      Safe Γ w (whileRounds limit test body fuel rounds last) Q
  | 0, _, _, _, hw, _ => .exhausted hw
  | fuel + 1, rounds, last, w, hw, hlast => by
    -- a round is the same with and without a limit on their number
    have hround : Ensures Γ (do
        let out ← body
        if out.flow.stops then pure out
        else whileRounds limit test body fuel (rounds + 1) out) Q := by
      intro w hw
      refine .bind (hbody hw) fun out w' hev hout => ?_
      split
      · exact .pure hev.conforms hout
      · exact whileRounds_safe hQ htest hbody hev.conforms hout
    unfold whileRounds
    refine .bind (htest hw) fun v w' hev _ => ?_
    split
    · exact .pure hev.conforms (hQ hev hlast)
    · split
      · split
        · exact .fault hev.conforms
        · exact hround hev.conforms
      · exact hround hev.conforms

theorem vectorRounds_safe {r : VecRef} {bind : Value → Exec Unit} (hQ : Lasts Γ Q)
    (hbind : ∀ n, Sound Γ (bind (.count n))) (hbody : Ensures Γ body Q) :
    ∀ {fuel i : Nat} {last : Outcome} {w : World}, w.Conforms Γ → Q last w →
      Safe Γ w (vectorRounds r bind body fuel i last) Q
  | 0, _, _, _, hw, _ => .exhausted hw
  | fuel + 1, i, last, w, hw, hlast => by
    rw [vectorRounds]
    refine .heap_bind ?_
    dsimp only
    split
    · exact .pure hw hlast
    · split
      · exact vectorRounds_safe hQ hbind hbody hw hlast
      · refine .bind (hbind _ hw) fun _ w₁ hev₁ _ => ?_
        refine .bind (hbody hev₁.conforms) fun out w₂ hev₂ hout => ?_
        split
        · exact .pure hev₂.conforms hout
        · exact vectorRounds_safe hQ hbind hbody hev₂.conforms hout

theorem stringRounds_safe {bind : Value → Exec Unit} (hbind : ∀ b, Sound Γ (bind (.str [b])))
    (hbody : Ensures Γ body Q) :
    ∀ {s : Bytes} {last : Outcome} {w : World}, w.Conforms Γ → Q last w →
      Safe Γ w (stringRounds bind body s last) Q
  | [], _, _, hw, hlast => .pure hw hlast
  | b :: rest, _, w, hw, _ => by
    rw [stringRounds]
    refine .bind (hbind b hw) fun _ w₁ hev₁ _ => ?_
    refine .bind (hbody hev₁.conforms) fun out w₂ hev₂ hout => ?_
    split
    · exact .pure hev₂.conforms hout
    · exact stringRounds_safe hbind hbody hev₂.conforms hout

theorem writeAll_safe {types : List Ty} (hw : w.Conforms Γ)
    (hvars : List.Forall₂ (Γ f).Has vars types) (hvals : w.heap.HasTypes vals types) :
    Safe Γ w ((vars.zip vals).forM fun (var, v) => Exec.writeSlot f var.slot v)
      fun _ _ => True := by
  induction hvars generalizing vals w with
  | nil => exact .pure hw trivial
  | cons hvar _ ih =>
    obtain ⟨hid, rfl⟩ := hvar
    cases hvals with
    | cons hv hvals =>
      refine .bind (Exec.writeSlot_safe hw hid hv) fun _ w' hev _ => ?_
      exact ih hev.conforms (Heap.HasTypes.mono hvals hev.grows)

/-- Binding an entry of a table the loop variables fit. -/
theorem bindEntry_safe {r : TableRef} {k : Key} {index : List Value} {v : Option Value}
    (hw : w.Conforms Γ) (hloop : (Γ f).Loop vars valueVar (w.heap.table r).ty)
    (hv : Table.find? k (w.heap.table r).entries = some v)
    (hindex : (w.heap.table r).indexOf k = .ok index) :
    Safe Γ w (bindEntry f vars valueVar index v) fun _ _ => True := by
  -- the key decodes to values of the index types, since it is one of the table's keys
  have htable := hw.heap.tables r
  have hmem := Table.mem_of_find? hv
  obtain ⟨vals, hvals, htypes⟩ := htable.indexOf hmem
  cases hvals.symm.trans hindex
  have hcarries := htable.values _ hmem
  -- the loop fits the type of the table, whether that is a table or a set
  obtain ⟨hvars, hvalue⟩ : List.Forall₂ (Γ f).Has vars (w.heap.table r).index ∧
      ∀ id ∈ valueVar, ∀ y, (w.heap.table r).yield = some y → (Γ f).Has id y := by
    unfold Table.ty at hloop
    split at hloop
    · rename_i y hy
      refine ⟨hloop.1, fun id hid y' hy' => ?_⟩
      cases hy.symm.trans hy'
      exact hloop.2 id hid
    · rename_i hy
      exact ⟨hloop, fun _ _ _ hy' => by cases hy.symm.trans hy'⟩
  unfold bindEntry
  split
  · rename_i var v
    cases hy : (w.heap.table r).yield with
    | none =>
      rw [hy] at hcarries
      exact hcarries.elim
    | some y =>
      rw [hy] at hcarries
      obtain ⟨hid, rfl⟩ := hvalue var rfl y hy
      exact .bind (Exec.writeSlot_safe hw hid hcarries) fun _ w' hev _ =>
        writeAll_safe hev.conforms hvars (Heap.HasTypes.mono htypes hev.grows)
  · exact writeAll_safe hw hvars htypes

/-- The table of a loop keeps its type, so whatever entry is due fits the loop
variables. -/
theorem tableRounds_safe {r : TableRef} {vars : List Ident} {valueVar : Option Ident}
    (hQ : Lasts Γ Q) (hbody : Ensures Γ body Q) :
    ∀ {keys : List Key} {last : Outcome} {w : World}, w.Conforms Γ →
      r.idx < w.heap.tables.size → (Γ f).Loop vars valueVar (w.heap.table r).ty → Q last w →
      Safe Γ w (tableRounds r (bindEntry f vars valueVar) body keys last) Q
  | [], _, _, hw, _, _, hlast =>
    .bind (Exec.leave_sound hw) fun _ _ hev _ => .pure hev.conforms (hQ hev hlast)
  | k :: rest, last, w, hw, hr, hloop, hlast => by
    rw [tableRounds]
    refine .heap_bind ?_
    dsimp only
    split
    · exact tableRounds_safe hQ hbody hw hr hloop hlast
    · rename_i v hv
      -- keys of the table decode, so the abort is out of the question
      obtain ⟨vals, hvals, -⟩ := (hw.heap.tables r).indexOf (Table.mem_of_find? hv)
      refine .ofAbort_bind hw (fun a ha => by cases hvals.symm.trans ha) fun index hindex => ?_
      refine .bind (bindEntry_safe hw hloop hv hindex) fun _ w₁ hev₁ _ => ?_
      refine .bind (.onFault (hbody hev₁.conforms) fun e w₂ hev₂ => ?_) fun out w₂ hev₂ hout => ?_
      · exact .bind (Exec.leave_sound hev₂.conforms) fun _ _ hev₃ _ => .fault hev₃.conforms
      · -- the body may have changed the table, but not its type
        have hg := hev₁.grows.trans hev₂.grows
        split
        · exact .bind (Exec.leave_sound hev₂.conforms) fun _ _ hev₃ _ =>
            .pure hev₃.conforms (hQ hev₃ hout)
        · exact tableRounds_safe hQ hbody hev₂.conforms (Nat.lt_of_lt_of_le hr hg.tables)
            (hg.table_ty r hr ▸ hloop) hout

/-- What a loop runs over has the very type its variables fit. -/
theorem loop_typeOf (hv : w.heap.HasType v ty) (hloop : (Γ f).Loop vars valueVar ty) :
    (Γ f).Loop vars valueVar (w.heap.typeOf v) := by
  rwa [hv.typeOf_eq (by rintro rfl; exact hloop)]

theorem writeCount_safe {n : UInt64} (hw : w.Conforms Γ) (hvar : var ∈ (Γ f).idents)
    (hint : var.ty.isIntegral = true) :
    Safe Γ w (Exec.writeSlot f var.slot (Value.coerce (.count n) var.ty)) fun _ _ => True := by
  refine Exec.writeSlot_safe hw hvar ?_
  cases hty : var.ty <;> rw [hty] at hint <;> cases hint
  all_goals exact ⟨trivial, trivial, .inr rfl⟩

theorem writeByte_safe {b : UInt8} (hw : w.Conforms Γ) (hvar : (Γ f).Has var .string) :
    Safe Γ w (Exec.writeSlot f var.slot (.str [b])) fun _ _ => True := by
  refine Exec.writeSlot_safe hw hvar.1 ?_
  rw [hvar.2]
  exact ⟨trivial, by simp [Value.Short], .inr rfl⟩

/-- The rounds of a loop whose variables fit what it runs over. -/
theorem forRounds_safe (hQ : Lasts Γ Q) (hw : w.Conforms Γ) (hv : w.heap.HasType v ty)
    (hloop : (Γ f).Loop vars valueVar ty) (hbody : Ensures Γ body Q) (hnext : Q .next w) :
    Safe Γ w (forRounds fuel f vars valueVar v body) Q := by
  have hloop := loop_typeOf hv hloop
  cases v with
  | table r =>
    refine .heap_bind (.bind (Exec.enter_safe hw) fun _ w' hev _ => ?_)
    exact tableRounds_safe hQ hbody hev.conforms (Nat.lt_of_lt_of_le hv.has hev.grows.tables)
      (hev.grows.table_ty r hv.has ▸ hloop) (hQ hev hnext)
  | vector r =>
    obtain ⟨var, rfl, hvar, hint⟩ := hloop
    exact vectorRounds_safe hQ (fun n _ hw => writeCount_safe hw hvar hint) hbody hw hnext
  | str s =>
    obtain ⟨var, rfl, hvar⟩ := hloop
    exact stringRounds_safe (fun b _ hw => writeByte_safe hw hvar) hbody hw hnext
  -- no loop fits a value of any other kind
  | _ => exact hloop.elim

end Rounds

/-! ## Other parts -/

theorem typeOf_clean (hw : w.Conforms Γ) : (w.heap.typeOf v).clean = true := by
  cases v with
  | table r => exact (hw.heap.tables r).clean
  | vector r => exact (hw.heap.vecs r).clean
  | _ => rfl

/-- A value that may be viewed as one of a type is one. -/
theorem hasType_of_canView {ty' : Ty} (hw : w.Conforms Γ) (hv : w.heap.HasType v ty')
    (hclean : ty.clean = true) (hview : w.heap.canView v ty = true) :
    w.heap.HasType v ty := by
  refine ⟨hv.has, hv.short, ?_⟩
  unfold Heap.canView at hview
  split at hview
  · exact .inl rfl
  · exact .inr rfl
  · cases hview
  · exact .inr ((Ty.same_iff_eq (typeOf_clean hw) hclean).mp hview)

/-- A value of a type may be viewed as one. -/
theorem canView_of_hasType (hw : w.Conforms Γ) (hv : w.heap.HasType v ty)
    (hclean : ty.clean = true) : w.heap.canView v ty = true := by
  unfold Heap.canView
  split
  · rfl
  · rfl
  · rename_i hdouble
    have hkind := hv.ofKind rfl
    cases v <;> cases hkind
    exact absurd rfl (hdouble _)
  · rename_i hany _ _
    exact (Ty.same_iff_eq (typeOf_clean hw) hclean).mpr (hv.typeOf_eq hany)

/-- Binding a value of the variable's type. -/
theorem bindCase_safe {binding : Option Ident} (hw : w.Conforms Γ)
    (hbinding : ∀ id ∈ binding, id ∈ (Γ f).idents ∧ w.heap.HasType v id.ty) :
    Safe Γ w (bindCase f v binding) fun _ _ => True := by
  cases binding with
  | none => exact .pure hw trivial
  | some id =>
    obtain ⟨hid, hv⟩ := hbinding id rfl
    refine .heap_bind ?_
    have hview := canView_of_hasType hw hv ((Γ f).clean id hid)
    simp only [Heap.view?, hview, if_true]
    exact Exec.writeSlot_safe hw hid hv

/-- What a switch selects: no value lacks a key, and a bound value has the
type of its label. -/
theorem find_safe {d : Dispatch} {selector : Ty} {L : Layout} (hw : w.Conforms Γ)
    (hd : d.Typed L selector) (hv : w.heap.HasType v selector) :
    ∃ arm binding, d.find w.heap selector v = .ok (arm, binding) ∧
      ∀ id ∈ binding, id ∈ L.idents ∧ w.heap.HasType v id.ty := by
  have hvalue : ∃ arm, d.findValue w.heap selector v = .ok arm := by
    unfold Dispatch.findValue
    split
    · exact ⟨_, rfl⟩
    · rename_i hne
      -- with value labels the selector is atomic, and values of atomic types have keys
      have hatomic := hd.values (by simpa using hne)
      obtain ⟨k, hk⟩ := Key.exists_encode_singleton.mpr (hv.fits hatomic)
      rw [hk]
      exact ⟨_, rfl⟩
  obtain ⟨arm, harm⟩ := hvalue
  unfold Dispatch.find
  rw [harm]
  simp only [bind, Except.bind]
  split
  · rename_i t ht
    refine ⟨some t.arm, t.binding?, rfl, fun id hid => ?_⟩
    obtain ⟨hclean, hbinding⟩ := hd.types t (List.mem_of_find?_eq_some ht)
    obtain ⟨hmem, hty⟩ := hbinding id hid
    have hview := List.find?_some ht
    exact ⟨hmem, hty ▸ hasType_of_canView hw hv hclean hview⟩
  · exact ⟨_, none, rfl, fun _ hid => by cases hid⟩
  · exact ⟨_, none, rfl, fun _ hid => by cases hid⟩

theorem giveFresh_sound : ∀ {ids : List Ident}, (∀ id ∈ ids, id ∈ (Γ f).idents) →
    Sound Γ (giveFresh f ids)
  | [], _, _, hw => .pure hw trivial
  | id :: rest, hids, w, hw => by
    have hid := hids id (List.mem_cons_self ..)
    have hrest : Sound Γ (giveFresh f rest) :=
      giveFresh_sound fun id' hid' => hids id' (List.mem_cons_of_mem _ hid')
    rw [giveFresh]
    refine .heap_bind ?_
    split
    · rename_i v h hfresh
      obtain ⟨hconf, hgrows, hv⟩ := hw.heap.fresh ((Γ f).clean id hid) hfresh
      refine .bind (Exec.setHeap_safe hw ⟨hconf, hgrows⟩) fun _ w₁ hev₁ hheap => ?_
      refine .bind (Exec.writeSlot_safe hev₁.conforms hid (hheap.symm ▸ hv)) fun _ w₂ hev₂ _ => ?_
      exact hrest hev₂.conforms
    · exact .bind (Exec.clearSlot_safe hw) fun _ w₁ hev₁ _ => hrest hev₁.conforms

theorem deadline_safe {timeout : Option Expr} (hw : w.Conforms Γ)
    (htimeout : ∀ e ∈ timeout, e.Typed (Γ f)) :
    Safe Γ w (deadline f timeout) fun _ _ => True := by
  cases timeout with
  | none => exact .pure hw trivial
  | some e =>
    have heval : Safe Γ w (some <$> e.eval f) fun _ _ => True :=
      .bind (Expr.eval_safe e hw (htimeout e rfl)) fun _ _ hev _ => .pure hev.conforms trivial
    refine .bind (.onFault heval fun _ _ hev => .pure hev.conforms trivial) fun v w' hev _ => ?_
    split
    · refine .get_bind ?_
      split
      · exact .pure hev.conforms trivial
      · exact .throw hev.conforms fun h => h
    · exact .pure hev.conforms trivial
    · exact .pure hev.conforms trivial

/-- A trigger that is left with typed parts. -/
theorem evolves_install {limit : Option Instant} {isReturn : Bool} {span : Span} (hw : w.Conforms Γ)
    (hc : c.Typed (Γ c.frame)) :
    w.Evolves Γ (w.install c limit isReturn span) := by
  have hheap : (w.install c limit isReturn span).heap = w.heap := by rw [World.install_eq]
  have htriggers : (w.install c limit isReturn span).triggers =
      w.triggers.push (w.installed c limit isReturn span) := by rw [World.install_eq]
  have hslots : ∀ f, ((w.install c limit isReturn span).frame f).slots = (w.frame f).slots := by
    intro f
    rw [World.frame_install]
    split
    · exact World.frame_modifyFrame_field Frame.slots
        (g := fun fr => { fr with delayed := some w.nextTrigger }) (fun _ => rfl) w c.frame f
    · rfl
  refine ⟨⟨hheap ▸ hw.heap, fun f id hid v hv => ?_, fun t c' hc' => ?_⟩, hheap ▸ .refl _⟩
  · rw [hslots] at hv
    exact hheap ▸ hw.slots f id hid v hv
  · -- the new trigger holds `c` if it may wait; the others hold what they held
    by_cases ht : t = w.nextTrigger
    · subst ht
      rw [World.trigger_push_self htriggers] at hc'
      simp only [World.installed, Option.ite_none_right_eq_some, Option.some.injEq] at hc'
      exact hc'.2 ▸ hc
    · rw [World.trigger_push_of_ne htriggers ht] at hc'
      exact hw.captured t c' hc'

theorem printLine_safe (hw : w.Conforms Γ) : Safe Γ w (printLine vals) fun _ _ => True := by
  have htexts : Safe Γ w (Exec.ofStop (vals.mapM w.heap.text)) fun _ _ => True := by
    refine Exec.ofStop_safe hw (fun _ _ => trivial) fun s hs => ?_
    obtain ⟨v, -, hv⟩ := mapM_error hs
    rw [hw.heap.text hv]
    exact fun h => h
  exact .heap_bind (.bind htexts fun _ w' hev _ =>
    .of_modify (hev.conforms.evolves rfl (fun _ => rfl) fun _ _ h => h) trivial)

theorem raise_safe {name : String} {args : List Value} (hw : w.Conforms Γ) :
    Safe Γ w (raise name args) fun _ _ => True :=
  .of_modify (hw.evolves rfl (fun _ => rfl) fun _ _ h => h) trivial

/-! ## Execution -/

/-- What a statement does after it entered the journal decides its safety. -/
theorem exec_safe_of_act {s : Stmt} {Q : Outcome → World → Prop} (hw : w.Conforms Γ)
    (hact : Ensures Γ (act fuel f s) Q) : Safe Γ w (exec fuel f s) Q := by
  rw [exec_eq]
  exact .bind (Exec.visit_safe (Q := fun _ _ => True) hw trivial) fun _ _ hev _ =>
    hact hev.conforms

/-- What a part returned the whole did. -/
theorem returnedBy_of_part {s t : Stmt} {out : Outcome} (h : out.ReturnedBy t.preorder w)
    (ht : t ∈ s.parts) : out.ReturnedBy s.preorder w :=
  h.mono (preorder_subset_of_mem_parts ht)

mutual

/-- A typed statement keeps every world conforming, and what it returns has the
type of the expression returned. -/
theorem exec_safe {fuel : Nat} : ∀ (s : Stmt) {w : World}, w.Conforms Γ → s.Typed (Γ f) →
    Safe Γ w (exec fuel f s) (ReturnedBy s.preorder)
  | .list i body, w, hw, hs => exec_safe_of_act hw fun hw =>
    (execList_safe body hw hs).mono fun _ _ _ hout => hout.mono (List.subset_cons_self _ _)
  | .bodyList i bodies, w, hw, hs => exec_safe_of_act hw fun hw =>
    .bind (execEach_safe bodies hw hs) fun _ _ hev _ => .pure hev.conforms (.of_value rfl)
  | .expr i e, w, hw, hs => exec_safe_of_act hw fun hw =>
    .bind (Expr.eval_safe e hw hs) fun _ _ hev _ => .pure hev.conforms (.of_value rfl)
  | .print i args, w, hw, hs => exec_safe_of_act hw fun hw =>
    .bind (Expr.evalList_safe args hw hs) fun _ _ hev _ =>
      .bind (printLine_safe hev.conforms) fun _ _ hev' _ => .pure hev'.conforms (.of_value rfl)
  | .event i name args, w, hw, hs => exec_safe_of_act hw fun hw =>
    .bind (Expr.evalList_safe args hw hs) fun _ _ hev _ =>
      .bind (raise_safe hev.conforms) fun _ _ hev' _ => .pure hev'.conforms (.of_value rfl)
  | .cond i test thenBody elseBody, w, hw, hs => exec_safe_of_act hw fun hw => by
    refine .bind (Expr.eval_safe test hw hs.1) fun v w' hev _ => ?_
    split
    · refine .bind (Exec.setNext_safe hev.conforms) fun _ _ hev' _ => ?_
      exact (exec_safe elseBody hev'.conforms hs.2.2).mono fun _ _ _ hout =>
        returnedBy_of_part hout (by simp [parts])
    · refine .bind (Exec.setNext_safe hev.conforms) fun _ _ hev' _ => ?_
      exact (exec_safe thenBody hev'.conforms hs.2.1).mono fun _ _ _ hout =>
        returnedBy_of_part hout (by simp [parts])
  | .while i test body, w, hw, hs => exec_safe_of_act hw fun hw => by
    have htest : Sound Γ (test.eval f) := fun hw =>
      (Expr.eval_safe test hw hs.1).mono fun _ _ _ _ => trivial
    have hbody : Ensures Γ (exec fuel f body) (ReturnedBy body.preorder) := fun hw =>
      exec_safe body hw hs.2
    refine .get_bind (.bind (whileRounds_safe ReturnedBy.lasts htest hbody hw .next) ?_)
    intro out w' hev hout
    exact .pure hev.conforms (returnedBy_of_part hout.afterLoop (by simp [parts]))
  | .for i vars valueVar target body, w, hw, hs => exec_safe_of_act hw fun hw => by
    have hbody : Ensures Γ (exec fuel f body) (ReturnedBy body.preorder) := fun hw =>
      exec_safe body hw hs.2.2
    refine .bind (Expr.eval_safe target hw hs.1) fun v w' hev hv => ?_
    refine .bind (forRounds_safe ReturnedBy.lasts hev.conforms hv hs.2.1 hbody .next) ?_
    intro out w'' hev' hout
    exact .pure hev'.conforms (returnedBy_of_part hout.afterLoop (by simp [parts]))
  | .switch i selector cases dispatch, w, hw, hs => exec_safe_of_act hw fun hw => by
    obtain ⟨hsel, hdispatch, hcases⟩ := hs
    refine .bind (Expr.eval_safe selector hw hsel) fun v w' hev hv => .heap_bind ?_
    -- the selected arm binds a value of its own type, also after earlier arms ran
    obtain ⟨arm, binding, hfind, hbinding⟩ := find_safe hev.conforms hdispatch hv
    refine .ofAbort_bind hev.conforms (fun a ha => by cases hfind.symm.trans ha) fun r hr => ?_
    cases hfind.symm.trans hr
    cases arm with
    | none => exact .pure hev.conforms (.of_value rfl)
    | some arm =>
      have hbind : ∀ w'', w'.Evolves Γ w'' → Safe Γ w'' (bindCase f v binding) fun _ _ => True := by
        intro w'' hev'
        exact bindCase_safe hev'.conforms fun id hid =>
          ⟨(hbinding id hid).1, (hbinding id hid).2.mono hev'.grows⟩
      refine .bind (execCases_safe cases (List.Subset.refl _) hev.conforms hcases .next hbind) ?_
      intro out w'' hev' hout
      exact .pure hev'.conforms (hout.afterSwitch.mono (List.subset_cons_self _ _))
  | .add i target, w, hw, hs => exec_safe_of_act hw fun hw =>
    .bind (Expr.addTo_safe hw hs.1 hs.2) fun _ _ hev _ => .pure hev.conforms (.of_value rfl)
  | .delete i target, w, hw, hs => exec_safe_of_act hw fun hw =>
    .bind (Expr.deleteFrom_safe hw hs) fun _ _ hev _ => .pure hev.conforms (.of_value rfl)
  | .return i (some e), w, hw, hs => exec_safe_of_act hw fun hw => by
    refine .bind (Expr.eval_safe e hw hs) fun v w' hev hv => .pure hev.conforms fun u hu => ?_
    cases hu
    exact ⟨i, e, self_mem_preorder _, hv⟩
  | .init i ids, w, hw, hs => exec_safe_of_act hw fun hw =>
    .bind (giveFresh_sound hs hw) fun _ _ hev _ => .pure hev.conforms (.of_value rfl)
  | .when i test body timeout timeoutBody isReturn, w, hw, hs => exec_safe_of_act hw fun hw => by
    obtain ⟨htest, hbody, htimeout, htimeoutBody⟩ := hs
    -- what the trigger is left with is what was typed here, under the same frame
    have hinstall : Safe Γ _ (install ⟨test, body, timeoutBody, f⟩ timeout isReturn i.span)
        fun _ _ => True :=
      .bind (deadline_safe hw htimeout) fun _ _ hev _ =>
        .of_modify (evolves_install hev.conforms ⟨htest, hbody, htimeoutBody⟩) trivial
    exact .bind hinstall fun _ _ hev _ => .pure hev.conforms (.of_value rfl)
  | .return i none, w, hw, _ | .next i, w, hw, _ | .break i, w, hw, _ | .fallthrough i, w, hw, _
  | .null i, w, hw, _ => exec_safe_of_act hw fun hw => .pure hw (.of_value rfl)

theorem execList_safe {fuel : Nat} : ∀ (ss : List Stmt) {w : World}, w.Conforms Γ →
    TypedList (Γ f) ss → Safe Γ w (execList fuel f ss) (ReturnedBy (preorderList ss))
  | [], w, hw, _ => .pure hw (.of_value rfl)
  | s :: rest, w, hw, hs => by
    rw [execList]
    refine .bind (Exec.setNext_safe hw) fun _ w₁ hev₁ _ => ?_
    refine .bind (exec_safe s hev₁.conforms hs.1) fun out w₂ hev₂ hout => .get_bind ?_
    split
    · exact .pure hev₂.conforms (hout.mono (List.subset_append_left _ _))
    · exact (execList_safe rest hev₂.conforms hs.2).mono fun _ _ _ hrest =>
        hrest.mono (List.subset_append_right _ _)

theorem execEach_safe {fuel : Nat} : ∀ (ss : List Stmt) {w : World}, w.Conforms Γ →
    TypedList (Γ f) ss → Safe Γ w (execEach fuel f ss) fun _ _ => True
  | [], w, hw, _ => .pure hw trivial
  | s :: rest, w, hw, hs => by
    rw [execEach]
    refine .bind (Exec.setNext_safe hw) fun _ w₁ hev₁ _ => ?_
    refine .bind (.onFault (exec_safe s hev₁.conforms hs.1) fun _ _ hev => ?_) fun _ w₂ hev₂ _ => ?_
    · exact .pure hev.conforms (.of_value rfl)
    · exact execEach_safe rest hev₂.conforms hs.2

/-- An arm may leave the outcome of an earlier one, so `ss` has them all. -/
theorem execCases_safe {fuel : Nat} {bind : Exec Unit} {ss : List Stmt} :
    ∀ (cases : List Case) {skip : Nat} {last : Outcome} {w : World}, preorderCases cases ⊆ ss →
      w.Conforms Γ → TypedCases (Γ f) cases → last.ReturnedBy ss w →
      (∀ w', w.Evolves Γ w' → Safe Γ w' bind fun _ _ => True) →
      Safe Γ w (execCases fuel f bind skip cases last) (ReturnedBy ss)
  | [], _, _, w, _, hw, _, hlast, _ => by
    rw [execCases]
    exact .pure hw hlast
  | .mk _ body _ :: rest, skip + 1, last, w, hsub, hw, hs, hlast, hbind => by
    rw [execCases]
    exact execCases_safe rest (List.append_subset.mp hsub).2 hw hs.2 hlast hbind
  | .mk _ body _ :: rest, 0, last, w, hsub, hw, hs, _, hbind => by
    obtain ⟨hsub, hsubRest⟩ := List.append_subset.mp hsub
    rw [execCases]
    refine .bind (hbind w (.refl hw)) fun _ w₁ hev₁ _ => ?_
    refine .bind (exec_safe body hev₁.conforms hs.1) fun out w₂ hev₂ hout => ?_
    split
    · exact .pure hev₂.conforms (hout.mono hsub)
    · exact execCases_safe rest hsubRest hev₂.conforms hs.2 (hout.mono hsub) fun w' hev =>
        hbind w' ((hev₁.trans hev₂).trans hev)

end

end Stmt

/-! ## Triggers -/

namespace World

open Exec (Safe Sound)

variable {t : TriggerRef} {fuel : Nat} {g : World → World}

/-- Types speak of nothing that a clerical change touches. -/
theorem Clerical.evolves (hg : Clerical g) (hw : w.Conforms Γ) : w.Evolves Γ (g w) := by
  obtain ⟨_, _, _, _, _, _, _, hkept⟩ := hg.kept w
  refine hw.evolves ?_ (fun f => ?_) (hg.held w)
  · rw [hkept]
  · rw [hkept]
    rfl

theorem Clerical.sound (hg : Clerical g) : Sound Γ (modify g) :=
  fun hw => .of_modify (hg.evolves hw) trivial

/-- What triggers hold in a conforming world is typed. -/
theorem scheduled_sound : Scheduled (Conforms Γ) (Sound Γ) where
  pure _ _ hw := .pure hw trivial
  exhausted hw := .exhausted hw
  bind hx hk _ hw := .bind (hx hw) fun a _ hev _ => hk a hev.conforms
  onFault hx hr _ hw := .onFault (hx hw) fun e _ hev => hr e hev.conforms
  look _ hk w hw := hk w hw hw
  clerical hg := hg.sound
  note _ _ hw := Exec.note_safe hw
  cond hw hc _ hv :=
    (Expr.eval_safe _ hv (hw.captured _ _ hc).cond).mono fun _ _ _ _ => trivial
  body hw hc hb _ _ hv :=
    (Stmt.exec_safe _ hv ((hw.captured _ _ hc).bodyFor hb)).mono fun _ _ _ _ => trivial

end World

end Vigil
