import Vigil.Proofs.Build.Unit
import Vigil.Proofs.Typing.Evaluations

/-!
# Vigil.Proofs.Typing.Soundness — loaded units are type safe

Construction and execution meet here. What construction establishes about a
unit without errors is what execution needs: the body is typed under the
layout of the declared names, and every operation on a conforming world that
runs only typed bodies is safe.

`Script.load_type_safe` puts both together. Whatever sequence of runs of a
loaded unit, passes over the triggers and changes of sessions led to a world,
the next operation evaluates only expressions that passed construction, to
values of their static types, keeps all slots and collections as they are
declared, and finds no invariant of the engine broken.
-/

namespace Vigil

variable {op : HostOp}

/-! ## All expressions of a body -/

namespace Expr

mutual

/-- The expression and all below it. -/
def nodes : Expr → List Expr
  | .const v i => [.const v i]
  | .name id i => [.name id i]
  | .unary op e i => .unary op e i :: nodes e
  | .binary op l r i => .binary op l r i :: (nodes l ++ nodes r)
  | .assign t v i => .assign t v i :: (nodes t ++ nodes v)
  | .index t is i => .index t is i :: (nodes t ++ nodesList is)
  | .member es t i => .member es t i :: (nodesList es ++ nodes t)
  | .size e i => .size e i :: nodes e
  | .error i => [.error i]

def nodesList : List Expr → List Expr
  | [] => []
  | e :: es => nodes e ++ nodesList es

end

mutual

theorem typed_of_mem_nodes {L : Layout} {x : Expr} : ∀ {e : Expr}, e.Typed L → x ∈ e.nodes →
    x.Typed L
  | .const _ _, he, hx | .name _ _, he, hx => by
    rw [nodes, List.mem_singleton] at hx
    exact hx ▸ he
  | .unary _ _ _, he, hx | .size _ _, he, hx => by
    rw [nodes, List.mem_cons] at hx
    rcases hx with rfl | hx
    · exact he
    · exact typed_of_mem_nodes he.1 hx
  | .binary _ _ _ _, he, hx | .assign _ _ _, he, hx => by
    rw [nodes, List.mem_cons, List.mem_append] at hx
    rcases hx with rfl | hx | hx
    · exact he
    · exact typed_of_mem_nodes he.1 hx
    · exact typed_of_mem_nodes he.2.1 hx
  | .index _ _ _, he, hx => by
    rw [nodes, List.mem_cons, List.mem_append] at hx
    rcases hx with rfl | hx | hx
    · exact he
    · exact typed_of_mem_nodes he.1 hx
    · exact typed_of_mem_nodesList he.2.1 hx
  | .member _ _ _, he, hx => by
    rw [nodes, List.mem_cons, List.mem_append] at hx
    rcases hx with rfl | hx | hx
    · exact he
    · exact typed_of_mem_nodesList he.1 hx
    · exact typed_of_mem_nodes he.2.1 hx
  | .error _, he, _ => he.elim

theorem typed_of_mem_nodesList {L : Layout} {x : Expr} : ∀ {es : List Expr}, TypedList L es →
    x ∈ nodesList es → x.Typed L
  | [], _, hx => by
    rw [nodesList] at hx
    cases hx
  | _ :: _, hes, hx => by
    rw [nodesList, List.mem_append] at hx
    rcases hx with hx | hx
    · exact typed_of_mem_nodes hes.1 hx
    · exact typed_of_mem_nodesList hes.2 hx

end

end Expr

namespace Stmt

mutual

/-- All expressions that can be evaluated. Labels of cases are looked up by their
keys and never evaluated. -/
def evaluable : Stmt → List Expr
  | .list _ body | .bodyList _ body => evaluableList body
  | .expr _ e | .add _ e | .delete _ e | .return _ (some e) => e.nodes
  | .print _ args | .event _ _ args => Expr.nodesList args
  | .cond _ test a b => test.nodes ++ (evaluable a ++ evaluable b)
  | .while _ test body | .for _ _ _ test body => test.nodes ++ evaluable body
  | .switch _ selector cases _ => selector.nodes ++ evaluableCases cases
  | .when _ test body timeout timeoutBody _ =>
    test.nodes ++ (evaluable body ++ (Expr.nodesList timeout.toList ++ evaluableOption timeoutBody))
  | .next _ | .break _ | .fallthrough _ | .return _ none | .init .. | .null _ => []

def evaluableList : List Stmt → List Expr
  | [] => []
  | s :: rest => evaluable s ++ evaluableList rest

def evaluableCases : List Case → List Expr
  | [] => []
  | .mk _ body _ :: rest => evaluable body ++ evaluableCases rest

def evaluableOption : Option Stmt → List Expr
  | none => []
  | some s => evaluable s

end

mutual

theorem typed_of_mem_evaluable {L : Layout} {x : Expr} : ∀ {s : Stmt}, s.Typed L → x ∈ s.evaluable →
    x.Typed L
  | .list _ body, hs, hx | .bodyList _ body, hs, hx => by
    rw [evaluable] at hx
    exact typed_of_mem_evaluableList hs hx
  | .expr _ _, hs, hx | .delete _ _, hs, hx | .return _ (some _), hs, hx => by
    rw [evaluable] at hx
    exact Expr.typed_of_mem_nodes hs hx
  | .add _ _, hs, hx => by
    rw [evaluable] at hx
    exact Expr.typed_of_mem_nodes hs.1 hx
  | .print _ _, hs, hx | .event _ _ _, hs, hx => by
    rw [evaluable] at hx
    exact Expr.typed_of_mem_nodesList hs hx
  | .cond _ _ _ _, hs, hx => by
    rw [evaluable, List.mem_append, List.mem_append] at hx
    rcases hx with hx | hx | hx
    · exact Expr.typed_of_mem_nodes hs.1 hx
    · exact typed_of_mem_evaluable hs.2.1 hx
    · exact typed_of_mem_evaluable hs.2.2 hx
  | .while _ _ _, hs, hx => by
    rw [evaluable, List.mem_append] at hx
    rcases hx with hx | hx
    · exact Expr.typed_of_mem_nodes hs.1 hx
    · exact typed_of_mem_evaluable hs.2 hx
  | .for _ _ _ _ _, hs, hx => by
    rw [evaluable, List.mem_append] at hx
    rcases hx with hx | hx
    · exact Expr.typed_of_mem_nodes hs.1 hx
    · exact typed_of_mem_evaluable hs.2.2 hx
  | .switch _ _ _ _, hs, hx => by
    rw [evaluable, List.mem_append] at hx
    rcases hx with hx | hx
    · exact Expr.typed_of_mem_nodes hs.1 hx
    · exact typed_of_mem_evaluableCases hs.2.2 hx
  | .when _ _ _ timeout _ _, hs, hx => by
    rw [evaluable, List.mem_append, List.mem_append, List.mem_append] at hx
    rcases hx with hx | hx | hx | hx
    · exact Expr.typed_of_mem_nodes hs.1 hx
    · exact typed_of_mem_evaluable hs.2.1 hx
    · cases timeout with
      | none => simp [Expr.nodesList] at hx
      | some e =>
        rw [Option.toList_some, Expr.nodesList, Expr.nodesList, List.append_nil] at hx
        exact Expr.typed_of_mem_nodes (hs.2.2.1 e rfl) hx
    · exact typed_of_mem_evaluableOption hs.2.2.2 hx
  | .next _, _, hx | .break _, _, hx | .fallthrough _, _, hx | .return _ none, _, hx
  | .init _ _, _, hx | .null _, _, hx => by
    rw [evaluable] at hx
    cases hx

theorem typed_of_mem_evaluableList {L : Layout} {x : Expr} : ∀ {ss : List Stmt}, TypedList L ss →
    x ∈ evaluableList ss → x.Typed L
  | [], _, hx => by
    rw [evaluableList] at hx
    cases hx
  | _ :: _, hs, hx => by
    rw [evaluableList, List.mem_append] at hx
    rcases hx with hx | hx
    · exact typed_of_mem_evaluable hs.1 hx
    · exact typed_of_mem_evaluableList hs.2 hx

theorem typed_of_mem_evaluableCases {L : Layout} {x : Expr} : ∀ {cs : List Case}, TypedCases L cs →
    x ∈ evaluableCases cs → x.Typed L
  | [], _, hx => by
    rw [evaluableCases] at hx
    cases hx
  | .mk _ _ _ :: _, hs, hx => by
    rw [evaluableCases, List.mem_append] at hx
    rcases hx with hx | hx
    · exact typed_of_mem_evaluable hs.1 hx
    · exact typed_of_mem_evaluableCases hs.2 hx

theorem typed_of_mem_evaluableOption {L : Layout} {x : Expr} : ∀ {s : Option Stmt},
    TypedOption L s → x ∈ evaluableOption s → x.Typed L
  | none, _, hx => by
    rw [evaluableOption] at hx
    cases hx
  | some _, hs, hx => by
    rw [evaluableOption] at hx
    exact typed_of_mem_evaluable hs hx

end

end Stmt

/-! ## Histories of a unit -/

variable {Γ : FrameRef → Layout} {fuel : Nat} {w w' : World}

/-- A fresh engine has nothing that could fail to conform. -/
theorem World.conforms_start (Γ : FrameRef → Layout) (now : Instant) (limits : Limits) :
    (World.start now limits).Conforms Γ where
  heap := .empty
  slots f id _ v hv := by
    have hslots : ((start now limits).frame f).slots = #[] := by
      simp only [frame, start, Array.getElem?_empty]
      rfl
    simp [hslots, Slots.get] at hv
  captured t c hc := by simp [trigger, start] at hc

theorem Layout.eq_of_idents {L L' : Layout} (h : L.idents = L'.idents) : L = L' := by
  cases L
  cases L'
  cases h
  rfl

namespace Script

variable {s : Script} {L : Layout}

/-- An operation that runs nothing but the script, in frames laid out for it,
and binds no slot from outside. -/
def Admits (s : Script) (Γ : FrameRef → Layout) : HostOp → Prop
  | .run s' f => s' = s ∧ (Γ f).idents = s.idents
  | .bind .. => False
  | _ => True

/-- Some sequence of admitted operations, whatever came of each of them, leads
from one world to another. -/
def Leads (s : Script) (Γ : FrameRef → Layout) : World → World → Prop :=
  Relation.ReflTransGen fun w w' =>
    ∃ (op : HostOp) (fuel : Nat), s.Admits Γ op ∧ w' = (op.perform fuel).leaves w

theorem Admits.typed (hL : L.idents = s.idents) (hs : s.body.Typed L) (hop : s.Admits Γ op) :
    op.Typed Γ := by
  cases op with
  | run s' f =>
    -- a layout is determined by its identifiers
    obtain ⟨rfl, hf⟩ := hop
    rw [← Layout.eq_of_idents (hf.trans hL.symm)] at hs
    exact hs
  | bind => exact hop
  | _ => trivial

theorem Leads.conforms (hL : L.idents = s.idents) (hs : s.body.Typed L) (hleads : s.Leads Γ w w')
    (hw : w.Conforms Γ) : w'.Conforms Γ := by
  induction hleads with
  | refl => exact hw
  | tail _ hstep ih =>
    -- an operation that stopped early left a conforming world too
    obtain ⟨op, fuel, hop, rfl⟩ := hstep
    exact (HostOp.perform_sound (hop.typed hL hs) ih).evolves.conforms

end Script

/-- Performed from `w`, the operation is type safe. -/
structure HostOp.TypeSafe (Γ : FrameRef → Layout) (fuel : Nat) (op : HostOp) (w : World) :
    Prop where
  /-- Slots, keys, values and elements are left as they are declared. -/
  conforms : ((op.perform fuel).leaves w).Conforms Γ
  /-- No invariant of the engine is found broken. -/
  internal : ∀ stop, ((op.perform fuel).runFrom w).1 = .error stop → ¬ stop.Internal
  /-- What is evaluated passed construction, in a world that conforms, and a
  value it yields has the static type. -/
  evaluates : ∀ f e w', op.Evaluates fuel w f e w' → e.isError = false ∧ w'.Conforms Γ ∧
    ∀ v, ((e.eval f).runFrom w').1 = .ok v → ((e.eval f).leaves w').heap.HasType v e.ty

theorem HostOp.typeSafe_of_typed (hop : op.Typed Γ) (hw : w.Conforms Γ) : op.TypeSafe Γ fuel w where
  conforms := (perform_sound hop hw).evolves.conforms
  internal stop hstop := ((perform_sound hop hw).of_error (Prod.ext hstop rfl)).2
  evaluates f e w' he := by
    obtain ⟨hw', htyped⟩ := he.typed hw hop
    refine ⟨htyped.isError, hw', fun v hv => ?_⟩
    exact ((Expr.eval_safe e hw' htyped).of_ok (Prod.ext hv rfl)).2

namespace Script

/-- **Type safety.** A plain unit that loads has a layout of its names, and a
fresh frame conforms to it; its body holds no expression that failed
construction, and each of its expressions yields values of its static type;
and from a conforming world, after any sequence of its runs and of passes over
the triggers, the next operation is type safe. -/
theorem load_type_safe {u : Doc.Unit} {firstStmt : StmtId} {s : Script}
    (hload : load u firstStmt = .ok s) (hplain : u.plain = true) :
    s.breach? = none ∧ (∃ L : Layout, L.idents = s.idents) ∧
      (∀ Γ now limits size session,
        ((World.start now limits).addFrame size session).2.Conforms Γ) ∧
      (∀ Γ f w, (Γ f).idents = s.idents → w.Conforms Γ → ∀ e ∈ s.body.evaluable,
        e.isError = false ∧
        ∀ v, ((e.eval f).runFrom w).1 = .ok v → ((e.eval f).leaves w).heap.HasType v e.ty) ∧
      ∀ Γ w w', w.Conforms Γ → s.Leads Γ w w' → ∀ op, s.Admits Γ op → ∀ fuel,
        op.TypeSafe Γ fuel w' := by
  -- construction gives the typed body, execution relies on nothing else
  obtain ⟨L, hL, hbody, hbreach⟩ := typed_of_load hload hplain
  refine ⟨hbreach, ⟨L, hL⟩, ?_, ?_, ?_⟩
  · intro Γ now limits size session
    exact (World.evolves_addFrame size session (World.conforms_start Γ now limits)).conforms
  · intro Γ f w hf hw e he
    rw [← Layout.eq_of_idents (hf.trans hL.symm)] at hbody
    have htyped := Stmt.typed_of_mem_evaluable hbody he
    exact ⟨htyped.isError, fun v hv => ((Expr.eval_safe e hw htyped).of_ok (Prod.ext hv rfl)).2⟩
  · intro Γ w w' hw hleads op hop fuel
    exact HostOp.typeSafe_of_typed (hop.typed hL hbody) (hleads.conforms hL hbody hw)

/-- A unit that fills a table, runs over it, dispatches on its size and waits
for it to grow. -/
def tally : Doc.Unit where
  name := "tally"
  kind := .event
  locals := [⟨"seen", .table [.count] .double, none, .unknown⟩,
    ⟨"first", .count, some (.count 1), .unknown⟩]
  body := .list
    [.expr (.assign (.index (.name "seen") [.name "first"]) (.const (.int 7))),
      .for [⟨"k", none, .unknown⟩] (some ⟨"v", none, .unknown⟩) (.name "seen")
        (.print [.name "k", .name "v"]),
      .switch (.size (.name "seen")) [.mk (some [.name "first"]) none .break],
      .when (.binary .gt (.size (.name "seen")) (.name "first")) .null
        (some (.mk (.const (.interval (.ofInt 5))) none)) false]

/-- A fresh engine with one frame, of the size of `tally`. -/
def tallyStart : World := ((World.start default default).addFrame 4 none).2

/-- The unit loads, its run in a fresh frame prints the table it filled and
leaves a trigger behind, and both the run and the pass after it are type
safe. -/
theorem load_type_safe_tally : tally.plain = true ∧ ∃ s, load tally 0 = .ok s ∧
    s.breach? = none ∧
    (((HostOp.run s ⟨0⟩).perform 9).leaves tallyStart).output = #["1, 7.000000"] ∧
    (((HostOp.run s ⟨0⟩).perform 9).leaves tallyStart).fresh = [⟨0⟩] ∧
    ∃ Γ : FrameRef → Layout, (Γ ⟨0⟩).idents = s.idents ∧ ∀ fuel,
      (HostOp.run s ⟨0⟩).TypeSafe Γ fuel tallyStart ∧
      HostOp.checkAll.TypeSafe Γ fuel
        (((HostOp.run s ⟨0⟩).perform fuel).leaves tallyStart) := by
  have hplain : tally.plain = true := by decide +kernel
  have hload : load tally 0 = .ok (build tally 0) :=
    load_eq_ok_iff.mpr ⟨rfl, by decide +kernel⟩
  obtain ⟨hbreach, ⟨L, hL⟩, hfresh, -, hsafe⟩ := load_type_safe hload hplain
  have hw := hfresh (fun _ => L) default default 4 none
  have hrun : (build tally 0).Admits (fun _ => L) (.run (build tally 0) ⟨0⟩) := ⟨rfl, hL⟩
  refine ⟨hplain, _, hload, hbreach, by decide +kernel, by decide +kernel, fun _ => L, hL,
    fun fuel => ⟨?_, ?_⟩⟩
  · exact hsafe _ _ _ hw .refl _ hrun fuel
  · exact hsafe _ _ _ hw (.single ⟨_, fuel, hrun, rfl⟩) .checkAll trivial fuel

end Script

end Vigil
