import Vigil.Proofs.Exec.Run
import Vigil.Proofs.Stmt.Tree

/-!
# Vigil.Proofs.Exec.Compose — what executions are made of

Loops, lists, arms and statements are built from smaller computations by
sequences and handlers. A relation between computations that goes through these
(`Exec.Composes`) therefore relates two loops whose tests and bodies it relates,
and a statement and a variant of it that differ in their parts only, as soon as
it relates the parts and what the statement does itself (`Exec.Composes.act`).

A property of computations that holds of all that changes nothing, and goes
through sequences and handlers (`Exec.Sequential`), is the case where both sides
are the same. An expression has every property that the operations have which it is
made of (`Expr.eval_has`): besides those that only look, reads of its names and
writes to its places (`Expr.writes`).
-/

namespace Vigil

variable {s : Stmt}

/-! ## Parts of statements -/

namespace Stmt

/-- The statements a statement runs by itself. The bodies of a `when` are none
of them: they are left to its trigger. -/
def parts : Stmt → List Stmt
  | .list _ body | .bodyList _ body => body
  | .cond _ _ thenBody elseBody => [thenBody, elseBody]
  | .while _ _ body | .for _ _ _ _ body => [body]
  | .switch _ _ cases _ => cases.map Case.body
  | _ => []

theorem parts_subset_children (s : Stmt) : s.parts ⊆ s.children := by
  cases s with
  | «when» => exact List.nil_subset _
  | _ => exact List.Subset.refl _

theorem preorder_subset_of_mem_parts {t : Stmt} (h : t ∈ s.parts) : t.preorder ⊆ s.preorder :=
  List.Subset.trans (preorder_subset_forest (s.parts_subset_children h)) (forest_children_subset s)

/-- The statement with other parts. -/
def mapParts (g : Stmt → Stmt) : Stmt → Stmt
  | .list i body => .list i (body.map g)
  | .bodyList i bodies => .bodyList i (bodies.map g)
  | .cond i test thenBody elseBody => .cond i test (g thenBody) (g elseBody)
  | .while i test body => .while i test (g body)
  | .for i vars valueVar target body => .for i vars valueVar target (g body)
  | .switch i selector cases dispatch =>
    .switch i selector (cases.map fun c => .mk c.labels (g c.body) c.span) dispatch
  | s => s

theorem mapParts_self (s : Stmt) : s.mapParts (fun t => t) = s := by
  cases s with
  | list i body => rw [mapParts, List.map_id']
  | bodyList i bodies => rw [mapParts, List.map_id']
  | switch i selector cases dispatch =>
    have hcases : ∀ c : Case, Case.mk c.labels c.body c.span = c := by
      rintro ⟨_, _, _⟩
      rfl
    rw [mapParts, List.map_congr_left fun c _ => hcases c, List.map_id']
  | _ => rfl

/-- The identifiers a statement binds itself. -/
def binds : Stmt → List Ident
  | .for _ vars valueVar _ _ => vars ++ valueVar.toList
  | .switch _ _ _ dispatch => dispatch.types.filterMap TypeArm.binding?
  | _ => []

/-- Dispatch binds to the identifiers of type labels only. -/
theorem mem_binds_of_find {d : Dispatch} {h : Heap} {ty : Ty} {v : Value}
    {found : Option Nat × Option Ident} (hfind : d.find h ty v = .ok found) :
    ∀ id ∈ found.2, id ∈ d.types.filterMap TypeArm.binding? := by
  intro id hid
  rcases hvalue : d.findValue h ty v with a | arm
  · simp [Dispatch.find, hvalue, bind, Except.bind] at hfind
  · rcases htype : d.types.find? (fun t => h.canView v t.ty) with _ | t
    · rcases arm with _ | arm <;>
        simp [Dispatch.find, hvalue, htype, bind, Except.bind, pure, Except.pure] at hfind <;>
        · subst hfind
          cases hid
    · simp [Dispatch.find, hvalue, htype, bind, Except.bind, pure, Except.pure] at hfind
      subst hfind
      exact List.mem_filterMap.mpr ⟨t, List.mem_of_find?_eq_some htype, hid⟩

/-- The expression a statement evaluates to go on with its parts or with
nothing. -/
def operand? : Stmt → Option Expr
  | .expr _ e | .cond _ e _ _ | .while _ e _ | .for _ _ _ e _ | .switch _ e _ _ => some e
  | .return _ value => value
  | _ => none

theorem mem_exprs_of_operand {e : Expr} (h : e ∈ s.operand?) : e ∈ s.exprs := by
  cases s with
  | «return» i value => exact Option.mem_toList.mpr h
  | expr | cond | «while» | «for» | switch =>
    cases h
    exact List.mem_cons_self
  | _ => cases h

/-- The tags of statements whose work is more than an expression and parts. -/
def ownWork : List StmtTag := [.print, .event, .add, .delete, .init, .when]

end Stmt

namespace Exec

open Stmt

variable {valueVar : Option Ident} {r : TableRef}

/-! ## Two computations -/

/-- A relation between computations that goes through sequences and handlers, and
relates what ends at once or looks at the heap to itself. -/
structure Composes (Rel : {α : Type} → Exec α → Exec α → Prop) : Prop where
  bind : ∀ {α β : Type} {x y : Exec α} {k l : α → Exec β}, Rel x y → (∀ a, Rel (k a) (l a)) →
    Rel (x >>= k) (y >>= l)
  onFault : ∀ {α : Type} {x y : Exec α} {recover : Fault → Exec α}, Rel x y →
    (∀ e, Rel (recover e) (recover e)) → Rel (onFault x recover) (onFault y recover)
  pure : ∀ {α : Type} (a : α), Rel (Pure.pure a : Exec α) (Pure.pure a)
  fault : ∀ {α : Type} (e : Fault), Rel (fault e : Exec α) (fault e)
  abort : ∀ {α : Type} (a : Abort), Rel (abort a : Exec α) (abort a)
  heap : Rel heap heap

namespace Composes

variable {vars : List Ident}

variable {Rel : {α : Type} → Exec α → Exec α → Prop} {fuel fuel' : Nat} {f : FrameRef}
  {body body' : Exec Outcome} {variant : Stmt → Stmt}

/-- What comes after a computation that may be broken. -/
theorem ofAbort_bind {α β : Type} (c : Composes Rel) {r : Except Abort α} {k l : α → Exec β}
    (h : ∀ a, r = .ok a → Rel (k a) (l a)) : Rel (ofAbort r >>= k) (ofAbort r >>= l) := by
  cases r with
  | ok a => exact h a rfl
  | error a => exact c.abort a

theorem evalList (c : Composes Rel) {es : List Expr}
    (hes : ∀ e ∈ es, Rel (e.eval f) (e.eval f)) :
    Rel (Expr.evalList f es) (Expr.evalList f es) := by
  induction es with
  | nil =>
    rw [Expr.evalList]
    exact c.pure _
  | cons e es ih =>
    obtain ⟨he, hes⟩ := List.forall_mem_cons.mp hes
    rw [Expr.evalList]
    exact c.bind he fun _ => c.bind (ih hes) fun _ => c.pure _

theorem bindEntry (c : Composes Rel)
    (hwrite : ∀ id ∈ vars ++ valueVar.toList, ∀ v,
      Rel (writeSlot f id.slot v) (writeSlot f id.slot v)) (index : List Value)
    (v : Option Value) :
    Rel (bindEntry f vars valueVar index v) (bindEntry f vars valueVar index v) := by
  rw [List.forall_mem_append] at hwrite
  have hall : ∀ bs : List (Ident × Value), (∀ b ∈ bs, b.1 ∈ vars) →
      Rel (bs.forM fun b => writeSlot f b.1.slot b.2 : Exec PUnit)
        (bs.forM fun b => writeSlot f b.1.slot b.2) := by
    intro bs hbs
    induction bs with
    | nil => exact c.pure _
    | cons b bs ih =>
      obtain ⟨hb, hbs⟩ := List.forall_mem_cons.mp hbs
      exact c.bind (hwrite.1 _ hb _) fun _ => ih hbs
  have hvars := hall (vars.zip index) fun b hb => (List.of_mem_zip hb).1
  unfold Stmt.bindEntry
  dsimp only
  split
  · exact c.bind (hwrite.2 _ (by simp) _) fun _ => hvars
  · exact hvars

theorem bindCase (c : Composes Rel) {v : Value} {binding : Option Ident}
    (hwrite : ∀ id ∈ binding, ∀ v, Rel (writeSlot f id.slot v) (writeSlot f id.slot v)) :
    Rel (bindCase f v binding) (bindCase f v binding) := by
  cases binding with
  | none => exact c.pure _
  | some id =>
    refine c.bind c.heap fun h => ?_
    split
    · exact hwrite id rfl _
    · exact c.abort _

/-- A loop over a sequence goes on with its one variable. -/
theorem singleVar_bind {α : Type} (c : Composes Rel) {k l : Ident → Exec α}
    (h : ∀ var ∈ vars, Rel (k var) (l var)) :
    Rel (singleVar vars >>= k) (singleVar vars >>= l) := by
  rcases vars with _ | ⟨var, _ | ⟨_, _⟩⟩
  · exact c.abort _
  · exact h var List.mem_cons_self
  · exact c.abort _

theorem deadline (c : Composes Rel)
    (hclock : ∀ {α : Type} {k l : World → Exec α}, (∀ w v, w.now = v.now → Rel (k w) (l v)) →
      Rel (get >>= k) (get >>= l)) {timeout : Option Expr}
    (htimeout : ∀ e ∈ timeout, Rel (e.eval f) (e.eval f)) :
    Rel (deadline f timeout) (deadline f timeout) := by
  cases timeout with
  | none => exact c.pure _
  | some e =>
    have he : Rel (some <$> e.eval f) (some <$> e.eval f) := by
      rw [map_eq_pure_bind]
      exact c.bind (htimeout e rfl) fun _ => c.pure _
    refine c.bind (c.onFault he fun _ => c.pure _) fun v => ?_
    split
    · refine hclock fun w v hnow => ?_
      rw [hnow]
      split
      · exact c.pure _
      · exact c.abort _
    · exact c.pure _
    · exact c.pure _

/-! ### Loops -/

section Loops

variable {bind bind' : Value → Exec Unit}

/-- Rounds with the same budget. -/
theorem whileRounds (c : Composes Rel)
    (hexhausted : Rel (throw .exhausted : Exec Outcome) (throw .exhausted))
    {limit : Option Nat} {test test' : Exec Value} (ht : Rel test test') (hb : Rel body body')
    (rounds : Nat) (last : Outcome) :
    Rel (whileRounds limit test body fuel rounds last)
      (whileRounds limit test' body' fuel rounds last) := by
  induction fuel generalizing rounds last with
  | zero => exact hexhausted
  | succ fuel ih =>
    have hround : ∀ n, Rel
        (body >>= fun out => if out.flow.stops then Pure.pure out
          else Stmt.whileRounds limit test body fuel n out)
        (body' >>= fun out => if out.flow.stops then Pure.pure out
          else Stmt.whileRounds limit test' body' fuel n out) := by
      intro n
      refine c.bind hb fun out => ?_
      split
      · exact c.pure _
      · exact ih _ _
    unfold Stmt.whileRounds
    refine c.bind ht fun v => ?_
    split
    · exact c.pure _
    · split
      · split
        · exact c.fault _
        · exact hround _
      · exact hround _

theorem tableRounds (c : Composes Rel)
    (hleave : Rel (modifyTable r Table.leave) (modifyTable r Table.leave))
    {bind bind' : List Value → Option Value → Exec Unit}
    (hbind : ∀ index v, Rel (bind index v) (bind' index v)) (hb : Rel body body') (keys : List Key)
    (last : Outcome) :
    Rel (tableRounds r bind body keys last) (tableRounds r bind' body' keys last) := by
  induction keys generalizing last with
  | nil => exact c.bind hleave fun _ => c.pure _
  | cons k rest ih =>
    rw [Stmt.tableRounds, Stmt.tableRounds]
    refine c.bind c.heap fun h => ?_
    dsimp only
    split
    · exact ih last
    · refine c.ofAbort_bind fun index _ => c.bind (hbind _ _) fun _ => c.bind ?_ fun out => ?_
      · exact c.onFault hb fun e => c.bind hleave fun _ => c.fault e
      · split
        · exact c.bind hleave fun _ => c.pure _
        · exact ih out

/-- Rounds with the same budget. -/
theorem vectorRounds (c : Composes Rel)
    (hexhausted : Rel (throw .exhausted : Exec Outcome) (throw .exhausted)) (r : VecRef)
    (hbind : ∀ v, Rel (bind v) (bind' v)) (hb : Rel body body') (i : Nat) (last : Outcome) :
    Rel (vectorRounds r bind body fuel i last) (vectorRounds r bind' body' fuel i last) := by
  induction fuel generalizing i last with
  | zero => exact hexhausted
  | succ fuel ih =>
    rw [Stmt.vectorRounds, Stmt.vectorRounds]
    refine c.bind c.heap fun h => ?_
    dsimp only
    split
    · exact c.pure _
    · split
      · exact ih _ _
      · refine c.bind (hbind _) fun _ => c.bind hb fun out => ?_
        split
        · exact c.pure _
        · exact ih _ _

theorem stringRounds (c : Composes Rel) (hbind : ∀ v, Rel (bind v) (bind' v))
    (hb : Rel body body') (bytes : Bytes) (last : Outcome) :
    Rel (stringRounds bind body bytes last) (stringRounds bind' body' bytes last) := by
  induction bytes generalizing last with
  | nil => exact c.pure _
  | cons b rest ih =>
    rw [Stmt.stringRounds, Stmt.stringRounds]
    refine c.bind (hbind _) fun _ => c.bind hb fun out => ?_
    split
    · exact c.pure _
    · exact ih out

/-- What is particular to loops over tables and over vectors is left to show. -/
theorem forRounds (c : Composes Rel)
    (hwrite : ∀ id ∈ vars ++ valueVar.toList, ∀ v,
      Rel (writeSlot f id.slot v) (writeSlot f id.slot v))
    (htable : ∀ r, Rel (forRounds fuel f vars valueVar (.table r) body)
      (forRounds fuel' f vars valueVar (.table r) body'))
    (hvector : ∀ (r : VecRef) {bind : Value → Exec Unit}, (∀ v, Rel (bind v) (bind v)) →
      Rel (Stmt.vectorRounds r bind body fuel 0 .next)
        (Stmt.vectorRounds r bind body' fuel' 0 .next))
    (hb : Rel body body') (target : Value) :
    Rel (forRounds fuel f vars valueVar target body)
      (forRounds fuel' f vars valueVar target body') := by
  have hvar : ∀ var ∈ vars, ∀ v, Rel (writeSlot f var.slot v) (writeSlot f var.slot v) :=
    fun var h => hwrite var (List.mem_append_left _ h)
  cases target with
  | table r => exact htable r
  | vector r => exact c.singleVar_bind fun var h => hvector r fun v => hvar var h _
  | str s => exact c.singleVar_bind fun var h => c.stringRounds (hvar var h) hb s _
  | _ => exact c.bind (c.bind c.heap fun _ => c.pure _) fun _ => c.fault _

end Loops

/-! ### Statements -/

/-- Lists of variants, where both sides see the same deferrals. -/
theorem execList (c : Composes Rel) (variant : Stmt → Stmt)
    (hnext : ∀ i, Rel (setNext f i) (setNext f i))
    (hdelayed : Rel (hasDelayed f) (hasDelayed f)) (hid : ∀ s, (variant s).id = s.id)
    {ss : List Stmt} (hss : ∀ s ∈ ss, Rel (exec fuel f s) (exec fuel' f (variant s))) :
    Rel (execList fuel f ss) (execList fuel' f (ss.map variant)) := by
  induction ss with
  | nil =>
    rw [List.map_nil, Stmt.execList, Stmt.execList]
    exact c.pure _
  | cons s rest ih =>
    obtain ⟨hs, hrest⟩ := List.forall_mem_cons.mp hss
    rw [List.map_cons, Stmt.execList, Stmt.execList, hid]
    refine c.bind (hnext _) fun _ => c.bind hs fun out => c.bind hdelayed fun delayed => ?_
    split
    · exact c.pure _
    · exact ih hrest

theorem execEach (c : Composes Rel) (hnext : ∀ i, Rel (setNext f i) (setNext f i))
    (hid : ∀ s, (variant s).id = s.id) {ss : List Stmt}
    (hss : ∀ s ∈ ss, Rel (exec fuel f s) (exec fuel' f (variant s))) :
    Rel (execEach fuel f ss) (execEach fuel' f (ss.map variant)) := by
  induction ss with
  | nil =>
    rw [List.map_nil, Stmt.execEach, Stmt.execEach]
    exact c.pure _
  | cons s rest ih =>
    obtain ⟨hs, hrest⟩ := List.forall_mem_cons.mp hss
    rw [List.map_cons, Stmt.execEach, Stmt.execEach, hid]
    exact c.bind (hnext _) fun _ => c.bind (c.onFault hs fun _ => c.pure _) fun _ => ih hrest

theorem execCases (c : Composes Rel) (variant : Stmt → Stmt) {bind : Exec Unit}
    (hbind : Rel bind bind) {cases : List Case}
    (hcases : ∀ a ∈ cases, Rel (exec fuel f a.body) (exec fuel' f (variant a.body)))
    (skip : Nat) (last : Outcome) :
    Rel (execCases fuel f bind skip cases last) (execCases fuel' f bind skip
      (cases.map fun a => .mk a.labels (variant a.body) a.span) last) := by
  induction cases generalizing skip last with
  | nil =>
    rw [List.map_nil, Stmt.execCases, Stmt.execCases]
    exact c.pure _
  | cons a rest ih =>
    obtain ⟨ha, hrest⟩ := List.forall_mem_cons.mp hcases
    obtain ⟨labels, body, span⟩ := a
    cases skip with
    | zero =>
      rw [List.map_cons, Stmt.execCases, Stmt.execCases]
      refine c.bind hbind fun _ => c.bind ha fun out => ?_
      split
      · exact c.pure _
      · exact ih hrest 0 out
    | succ skip =>
      rw [List.map_cons, Stmt.execCases, Stmt.execCases]
      exact ih hrest skip last

/-- What a statement that is no list and has no work of its own does besides
entering the journal, given what its parts do. -/
theorem act (c : Composes Rel) (variant : Stmt → Stmt)
    (htag : s.tag ∉ .list :: ownWork) (hid : ∀ t, (variant t).id = t.id)
    (hnext : ∀ i, Rel (setNext f i) (setNext f i))
    (heval : ∀ e ∈ s.operand?, Rel (e.eval f) (e.eval f))
    (hwrite : ∀ id ∈ s.binds, ∀ v, Rel (writeSlot f id.slot v) (writeSlot f id.slot v))
    (hwhile : ∀ {test : Exec Value} {body body' : Exec Outcome}, Rel test test → Rel body body' →
      Rel (get >>= fun w => Stmt.whileRounds w.limits.maxLoopRounds test body fuel 0 .next)
        (get >>= fun w => Stmt.whileRounds w.limits.maxLoopRounds test body' fuel' 0 .next))
    (htable : ∀ (r : TableRef) {vars : List Ident} {valueVar : Option Ident}
      {body body' : Exec Outcome}, (∀ id ∈ vars ++ valueVar.toList, ∀ v,
        Rel (writeSlot f id.slot v) (writeSlot f id.slot v)) → Rel body body' →
      Rel (Stmt.forRounds fuel f vars valueVar (.table r) body)
        (Stmt.forRounds fuel' f vars valueVar (.table r) body'))
    (hvector : ∀ (r : VecRef) {bind : Value → Exec Unit} {body body' : Exec Outcome},
      (∀ v, Rel (bind v) (bind v)) → Rel body body' →
      Rel (Stmt.vectorRounds r bind body fuel 0 .next)
        (Stmt.vectorRounds r bind body' fuel' 0 .next))
    (hparts : ∀ t ∈ s.parts, Rel (exec fuel f t) (exec fuel' f (variant t))) :
    Rel (act fuel f s) (act fuel' f (s.mapParts variant)) := by
  cases s with
  | list | print | event | add | delete | init | «when» =>
    exact absurd (by simp [tag, ownWork]) htag
  | bodyList i bodies =>
    rw [mapParts, Stmt.act, Stmt.act]
    exact c.bind (c.execEach hnext hid hparts) fun _ => c.pure _
  | expr i e => exact c.bind (heval e rfl) fun _ => c.pure _
  | cond i test thenBody elseBody =>
    rw [mapParts, Stmt.act, Stmt.act, hid, hid]
    refine c.bind (heval test rfl) fun v => ?_
    split
    · exact c.bind (hnext _) fun _ => hparts elseBody (by simp [Stmt.parts])
    · exact c.bind (hnext _) fun _ => hparts thenBody (by simp [Stmt.parts])
  | «while» i test body =>
    rw [mapParts, Stmt.act, Stmt.act, ← bind_assoc, ← bind_assoc]
    exact c.bind (hwhile (heval test rfl) (hparts body List.mem_cons_self)) fun _ => c.pure _
  | «for» i vars valueVar target body =>
    have hb := hparts body List.mem_cons_self
    rw [mapParts, Stmt.act, Stmt.act]
    refine c.bind (heval target rfl) fun v => c.bind ?_ fun _ => c.pure _
    exact c.forRounds hwrite (fun r => htable r hwrite hb) (fun r _ hbind => hvector r hbind hb)
      hb v
  | switch i selector cases dispatch =>
    rw [mapParts, Stmt.act, Stmt.act]
    refine c.bind (heval selector rfl) fun v => c.bind c.heap fun h =>
      c.ofAbort_bind fun found hfind => ?_
    have hbind := c.bindCase (v := v) fun id hid => hwrite id (mem_binds_of_find hfind id hid)
    split
    split
    · exact c.pure _
    · exact c.bind (c.execCases variant hbind (fun a ha => hparts _ (List.mem_map_of_mem ha)) _ _)
        fun _ => c.pure _
  | next i | «break» i | fallthrough i | null i => exact c.pure _
  | «return» i value =>
    cases value with
    | none => exact c.pure _
    | some e => exact c.bind (heval e rfl) fun _ => c.pure _

end Composes

/-! ## One computation -/

/-- A property of computations that all have which change nothing, and that goes
through sequences and handlers. -/
structure Sequential (K : {α : Type} → Exec α → Prop) : Prop where
  still : ∀ {α : Type} {x : Exec α}, (∀ w, x.leaves w = w) → K x
  bind : ∀ {α β : Type} {x : Exec α} {k : α → Exec β}, K x → (∀ a, K (k a)) → K (x >>= k)
  onFault : ∀ {α : Type} {x : Exec α} {recover : Fault → Exec α}, K x → (∀ e, K (recover e)) →
    K (onFault x recover)

namespace Sequential

variable {K : {α : Type} → Exec α → Prop} {fuel : Nat} {f : FrameRef} {body : Exec Outcome}

theorem diagonal (c : Sequential K) : Composes fun x y => x = y ∧ K x where
  bind hx hk := by
    obtain ⟨rfl, hx⟩ := hx
    obtain rfl := funext fun a => (hk a).1
    exact ⟨rfl, c.bind hx fun a => (hk a).2⟩
  onFault hx hr := by
    obtain ⟨rfl, hx⟩ := hx
    exact ⟨rfl, c.onFault hx fun e => (hr e).2⟩
  pure _ := ⟨rfl, c.still fun _ => rfl⟩
  fault _ := ⟨rfl, c.still fun _ => rfl⟩
  abort _ := ⟨rfl, c.still fun _ => rfl⟩
  heap := ⟨rfl, c.still fun _ => rfl⟩

theorem whileRounds (c : Sequential K) {limit : Option Nat} {test : Exec Value} (ht : K test)
    (hb : K body) (rounds : Nat) (last : Outcome) :
    K (whileRounds limit test body fuel rounds last) :=
  (c.diagonal.whileRounds ⟨rfl, c.still fun _ => rfl⟩ ⟨rfl, ht⟩ ⟨rfl, hb⟩ rounds last).2

theorem tableRounds (c : Sequential K) (hleave : K (modifyTable r Table.leave))
    {bind : List Value → Option Value → Exec Unit} (hbind : ∀ index v, K (bind index v))
    (hb : K body) (keys : List Key) (last : Outcome) : K (tableRounds r bind body keys last) :=
  (c.diagonal.tableRounds ⟨rfl, hleave⟩ (fun index v => ⟨rfl, hbind index v⟩) ⟨rfl, hb⟩ keys
    last).2

theorem vectorRounds (c : Sequential K) (r : VecRef) {bind : Value → Exec Unit}
    (hbind : ∀ v, K (bind v)) (hb : K body) (i : Nat) (last : Outcome) :
    K (vectorRounds r bind body fuel i last) :=
  (c.diagonal.vectorRounds ⟨rfl, c.still fun _ => rfl⟩ r (fun v => ⟨rfl, hbind v⟩) ⟨rfl, hb⟩ i
    last).2

theorem bindEntry (c : Sequential K) {vars : List Ident}
    (hwrite : ∀ id ∈ vars ++ valueVar.toList, ∀ v, K (writeSlot f id.slot v)) (index : List Value)
    (v : Option Value) : K (bindEntry f vars valueVar index v) :=
  (c.diagonal.bindEntry (fun id hid v => ⟨rfl, hwrite id hid v⟩) index v).2

/-- A loop over a table, where entering and leaving it is one thing. -/
theorem overTable (c : Sequential K)
    (hiterate : ∀ g, g = Table.enter ∨ g = Table.leave → K (modifyTable r g)) {vars : List Ident}
    (hwrite : ∀ id ∈ vars ++ valueVar.toList, ∀ v, K (writeSlot f id.slot v)) (hb : K body) :
    K (forRounds fuel f vars valueVar (.table r) body) :=
  c.bind (c.still fun _ => rfl) fun _ => c.bind (hiterate _ (.inl rfl)) fun _ =>
    c.tableRounds (hiterate _ (.inr rfl)) (c.bindEntry hwrite) hb _ _

theorem deadline (c : Sequential K) {timeout : Option Expr} (h : ∀ e ∈ timeout, K (e.eval f)) :
    K (deadline f timeout) := by
  refine (c.diagonal.deadline (fun hk => ?_) fun e he => ⟨rfl, h e he⟩).2
  obtain rfl := funext fun w => (hk w w rfl).1
  exact ⟨rfl, c.bind (c.still fun _ => rfl) fun w => (hk w w rfl).2⟩

/-- What a statement does after it started has the property when its parts do. -/
theorem act (c : Sequential K) (hnext : ∀ i, K (setNext f i))
    (heval : ∀ e ∈ s.operand?, K (e.eval f))
    (hwrite : ∀ id ∈ s.binds, ∀ v, K (writeSlot f id.slot v))
    (htable : ∀ (r : TableRef) {vars : List Ident} {valueVar : Option Ident}
      {body : Exec Outcome}, (∀ id ∈ vars ++ valueVar.toList, ∀ v, K (writeSlot f id.slot v)) →
      K body → K (forRounds fuel f vars valueVar (.table r) body))
    (hown : s.tag ∈ ownWork → K (act fuel f s)) (hparts : ∀ t ∈ s.parts, K (exec fuel f t)) :
    K (act fuel f s) := by
  by_cases htag : s.tag ∈ .list :: ownWork
  · rcases List.mem_cons.mp htag with hlist | htag
    · cases s with
      | list i body =>
        have hbody := (c.diagonal.execList (fun t => t) (fun i => ⟨rfl, hnext i⟩)
          ⟨rfl, c.still fun _ => rfl⟩ (fun _ => rfl) fun t ht => ⟨rfl, hparts t ht⟩).2
        exact hbody
      | _ => cases hlist
    · exact hown htag
  · refine (c.diagonal.act (fun t => t) htag (fun _ => rfl)
      (fun i => ⟨rfl, hnext i⟩) (fun e he => ⟨rfl, heval e he⟩)
      (fun id hid v => ⟨rfl, hwrite id hid v⟩) (fun ht hb => ?_) (fun r _ _ _ _ hw hb => ?_)
      (fun r _ _ _ hbind hb => ?_) fun t ht => ⟨rfl, hparts t ht⟩).2
    · obtain ⟨rfl, hb⟩ := hb
      exact ⟨rfl, c.bind (c.still fun _ => rfl) fun _ => c.whileRounds ht.2 hb _ _⟩
    · obtain ⟨rfl, hb⟩ := hb
      exact ⟨rfl, htable r (fun id hid v => (hw id hid v).2) hb⟩
    · obtain ⟨rfl, hb⟩ := hb
      exact ⟨rfl, c.vectorRounds r (fun v => (hbind v).2) hb _ _⟩

end Sequential

end Exec

/-! ## Expressions -/

/-- What an expression can write. -/
inductive Place where
  /-- A slot of its frame. -/
  | slot (i : Nat)
  /-- An element of some collection. -/
  | element
deriving DecidableEq, Repr

/-- Writing to the place has a property. -/
def Place.Has (K : {α : Type} → Exec α → Prop) (f : FrameRef) : Place → Prop
  | .slot i => ∀ v, K (Exec.writeSlot f i v)
  | .element => ∀ c index v, K (Exec.storeElement c index v)

namespace Expr

mutual

/-- The places evaluation may write. -/
def writes : Expr → List Place
  | .const .. | .name .. | .error _ => []
  | .unary _ e _ | .size e _ => writes e
  | .binary _ l r _ => writes l ++ writes r
  | .assign target value _ => writes value ++ writesAt target
  | .index t is _ => writes t ++ writesList is
  | .member es t _ => writes t ++ writesList es

def writesList : List Expr → List Place
  | [] => []
  | e :: es => writes e ++ writesList es

/-- The places a store may write, along with what it evaluates. -/
def writesAt : Expr → List Place
  | .name id _ => [.slot id.slot]
  | .index t is _ => writes t ++ writesList is ++ [.element]
  | _ => []

end

end Expr

/-- A property of computations that goes through sequences, and that the operations
of expressions have. -/
structure Exec.Evaluates (K : {α : Type} → Exec α → Prop) : Prop where
  pure : ∀ {α : Type} (a : α), K (Pure.pure a : Exec α)
  bind : ∀ {α β : Type} {x : Exec α} {k : α → Exec β}, K x → (∀ a, K (k a)) → K (x >>= k)
  mismatch : ∀ {α : Type} (m : Mismatch), K (mismatch m : Exec α)
  unary : ∀ (op : UnaryOp) (v : Value), K (do ofStop (op.apply (← heap) v))
  binary : ∀ (op : BinaryOp) (a b : Value), K (do ofStop (op.apply (← heap) a b))
  element : ∀ c index, K (element c index)
  isMember : ∀ c elem, K (isMember c elem)
  sizeOf : ∀ v, K (sizeOf v)

namespace Expr

open Exec

variable {K : {α : Type} → Exec α → Prop} {f : FrameRef}

mutual

/-- An expression has what reading its names and writing its places have. -/
theorem eval_has (c : Evaluates K) : (e : Expr) →
    (∀ id ∈ e.idents, K (readSlot f id.slot id.name)) → (∀ p ∈ e.writes, p.Has K f) → K (e.eval f)
  | .const v _, _, _ => by
    rw [eval]
    exact c.pure v
  | .name id _, hr, _ => by
    rw [eval]
    split
    · exact c.pure _
    · exact hr id (by simp [idents])
  | .unary op e _, hr, hw => by
    rw [idents] at hr
    rw [writes] at hw
    rw [eval]
    exact c.bind (eval_has c e hr hw) fun _ => c.unary op _
  | .binary op l r _, hr, hw => by
    rw [idents, List.forall_mem_append] at hr
    rw [writes, List.forall_mem_append] at hw
    have hl := eval_has c l hr.1 hw.1
    have hr := eval_has c r hr.2 hw.2
    cases op
    case and =>
      rw [eval]
      refine c.bind hl fun a => ?_
      split
      · exact c.pure _
      · exact c.bind hr fun _ => c.pure _
    case or =>
      rw [eval]
      refine c.bind hl fun a => ?_
      split
      · exact c.bind hr fun _ => c.pure _
      · exact c.pure _
    all_goals
      rw [eval]
      · exact c.bind hl fun _ => c.bind hr fun _ => c.binary _ _ _
      all_goals simp
  | .assign target value _, hr, hw => by
    rw [idents, List.forall_mem_append] at hr
    rw [writes, List.forall_mem_append] at hw
    rw [eval]
    exact c.bind (eval_has c value hr.2 hw.1) fun _ =>
      c.bind (store_has c target _ hr.1 hw.2) fun _ => c.pure _
  | .index t is _, hr, hw => by
    rw [idents, List.forall_mem_append] at hr
    rw [writes, List.forall_mem_append] at hw
    rw [eval]
    exact c.bind (eval_has c t hr.1 hw.1) fun _ =>
      c.bind (evalList_has c is hr.2 hw.2) fun _ => c.element _ _
  | .member es t _, hr, hw => by
    rw [idents, List.forall_mem_append] at hr
    rw [writes, List.forall_mem_append] at hw
    rw [eval]
    exact c.bind (eval_has c t hr.2 hw.1) fun _ => c.bind (evalList_has c es hr.1 hw.2) fun _ =>
      c.bind (c.isMember _ _) fun _ => c.pure _
  | .size e _, hr, hw => by
    rw [idents] at hr
    rw [writes] at hw
    rw [eval]
    exact c.bind (eval_has c e hr hw) fun _ => c.sizeOf _
  | .error _, _, _ => by
    rw [eval]
    exact c.mismatch _

theorem evalList_has (c : Evaluates K) : (es : List Expr) →
    (∀ id ∈ identsOf es, K (readSlot f id.slot id.name)) → (∀ p ∈ writesList es, p.Has K f) →
      K (evalList f es)
  | [], _, _ => by
    rw [evalList]
    exact c.pure _
  | e :: es, hr, hw => by
    rw [identsOf, List.forall_mem_append] at hr
    rw [writesList, List.forall_mem_append] at hw
    rw [evalList]
    exact c.bind (eval_has c e hr.1 hw.1) fun _ =>
      c.bind (evalList_has c es hr.2 hw.2) fun _ => c.pure _

theorem store_has (c : Evaluates K) : (e : Expr) → (v : Value) →
    (∀ id ∈ e.idents, K (readSlot f id.slot id.name)) → (∀ p ∈ e.writesAt, p.Has K f) →
      K (store f e v)
  | .name id _, v, _, hw => by
    rw [store]
    exact hw (.slot id.slot) (by simp [writesAt]) v
  | .index t is _, v, hr, hw => by
    rw [idents, List.forall_mem_append] at hr
    rw [writesAt, List.forall_mem_append, List.forall_mem_append] at hw
    obtain ⟨⟨ht, his⟩, helement⟩ := hw
    rw [store]
    exact c.bind (eval_has c t hr.1 ht) fun container =>
      c.bind (evalList_has c is hr.2 his) fun index =>
        helement .element List.mem_cons_self container index v
  | .const _ _, _, _, _ | .unary _ _ _, _, _, _ | .binary _ _ _ _, _, _, _ | .assign _ _ _, _, _, _
  | .member _ _ _, _, _, _ | .size _ _, _, _, _ | .error _, _, _, _ => by
    rw [store]
    · exact c.mismatch _
    all_goals simp

end

end Expr

end Vigil
