import Vigil.Lint
import Vigil.Proofs.Stmt.Tree
import Vigil.Proofs.Walk.Course

/-!
# Vigil.Proofs.Walk.Looks — walks that only look

Hooks that never steer are all called, one after the other
(`Visitor.walk_looks`). They meet the statements of a tree in order
(`Stmt.met_stmts`), and every identifier that one of their expressions names
(`Stmt.mem_met_idents`). So the rules for likely mistakes miss nothing
(`LintRule.unreachableCode_eq`, `Stmt.not_mem_namedSlots`).
-/

namespace Vigil

open NodeTree

/-! ## Hooks that never steer -/

namespace Visitor

variable {σ : Type} {v : Visitor σ}

/-- No hook leaves anything out. -/
def Looks (v : Visitor σ) : Prop := ∀ call st, ((v.ask call).run st).1 = .go

/-- The state after calls of hooks. -/
def after (v : Visitor σ) (calls : List HookCall) (st : σ) : σ :=
  calls.foldl (fun st call => ((v.ask call).run st).2) st

mutual

theorem course_looks (hv : v.Looks) : (t : NodeTree) → (st : σ) →
    v.course t st = ⟨t.hooks.map (·, .go), v.after t.hooks st⟩
  | .node n parts, st => by
    simp [course, courses_looks hv parts, hv _ _, hooks, after, Course.Stopped]

theorem courses_looks (hv : v.Looks) : (ts : List NodeTree) → (st : σ) →
    v.courses ts st = ⟨(hooksOf ts).map (·, .go), v.after (hooksOf ts) st⟩
  | [], _ => rfl
  | t :: ts, st => by
    simp [courses, course_looks hv t, courses_looks hv ts, hooksOf, after, Course.Stopped]

end

theorem walk_looks (hv : v.Looks) (s : Stmt) (st : σ) :
    ((v.walk s).run st).2 = v.after s.tree.hooks st := by
  show ((v.walkStmt s).run st).2 = _
  rw [walkStmt_follows v s st, course_looks hv]

end Visitor

/-! ## What they meet -/

def Node.stmts : Node → List Stmt
  | .stmt s => [s]
  | .expr _ => []

def Node.idents : Node → List Ident
  | .stmt _ => []
  | .expr e => e.ident?.toList

variable {α : Type}

def HookCall.met (g : Node → List α) : HookCall → List α
  | .pre n => g n
  | .post _ => []

namespace NodeTree

/-- What is met in the nodes of a tree, one after the other. -/
def met (g : Node → List α) (t : NodeTree) : List α := t.hooks.flatMap (HookCall.met g)

theorem hooksOf_eq (ts : List NodeTree) : hooksOf ts = ts.flatMap hooks := by
  induction ts with
  | nil => rfl
  | cons t ts ih =>
    rw [hooksOf, ih]
    rfl

@[simp] theorem met_node (g : Node → List α) (n : Node) (parts : List NodeTree) :
    (node n parts).met g = g n ++ parts.flatMap (met g) := by
  simp [met, hooks, hooksOf_eq, List.flatMap_assoc, HookCall.met]
  rfl

end NodeTree

theorem Expr.trees_eq (es : List Expr) : trees es = es.map tree := by
  induction es with
  | nil => rfl
  | cons e es ih => rw [trees, ih, List.map_cons]

theorem Stmt.trees_eq (ss : List Stmt) : trees ss = ss.map tree := by
  induction ss with
  | nil => rfl
  | cons s ss ih => rw [trees, ih, List.map_cons]

mutual

theorem Expr.met_tree : (e : Expr) → e.tree.met Node.stmts = [] ∧ e.tree.met Node.idents = e.idents
  | .const .. | .name .. | .error _ => by simp [tree, Node.stmts, Node.idents, ident?, idents]
  | .unary _ a _ | .size a _ => by
    simp [tree, Node.stmts, Node.idents, ident?, idents, a.met_tree]
  | .binary _ a b _ | .assign a b _ => by
    simp [tree, Node.stmts, Node.idents, ident?, idents, a.met_tree, b.met_tree]
  | .index a es _ | .member es a _ => by
    have hes := met_trees es
    simp [tree, Node.stmts, Node.idents, ident?, idents, a.met_tree, hes]

theorem Expr.met_trees : (es : List Expr) → (trees es).flatMap (met Node.stmts) = [] ∧
    (trees es).flatMap (met Node.idents) = identsOf es
  | [] => ⟨rfl, rfl⟩
  | e :: es => by
    have hes := met_trees es
    simp [trees, -List.flatMap_eq_nil_iff, identsOf, e.met_tree, hes]

end

theorem Labels.trees_eq (l : Labels) : l.trees = l.exprs.map Expr.tree := by
  cases l with
  | values es => exact Expr.trees_eq es
  | types _ => rfl
  | default => rfl

namespace Stmt

theorem treesOption_eq (o : Option Stmt) : treesOption o = o.toList.map tree := by
  cases o <;> rfl

theorem treesCases_eq (cs : List Case) :
    treesCases cs = cs.flatMap fun c => c.labels.exprs.map Expr.tree ++ [c.body.tree] := by
  induction cs with
  | nil => rfl
  | cons c cs ih =>
    obtain ⟨labels, body, span⟩ := c
    rw [treesCases, ih, List.flatMap_cons, List.append_assoc, Labels.trees_eq]
    rfl

/-- The statements are met in order. -/
theorem met_stmts (s : Stmt) : s.tree.met Node.stmts = s.preorder := by
  induction s using tree_induction with
  | h s ih =>
    have hrow : (s.children.map tree).flatMap (met Node.stmts) = forest s.children := by
      rw [List.flatMap_map]
      exact List.flatMap_congr ih
    have hexprs (es : List Expr) : (es.map Expr.tree).flatMap (met Node.stmts) = [] := by
      rw [← Expr.trees_eq, (Expr.met_trees es).1]
    rw [preorder_eq, ← hrow]
    cases s <;> simp [tree, children, Node.stmts, trees_eq, treesOption_eq, treesCases_eq,
      Expr.trees_eq, Expr.met_tree, hexprs, List.flatMap_assoc, List.flatMap_map]

theorem met_parts (s : Stmt) {id : Ident} : id ∈ s.tree.met Node.idents ↔
    (∃ e ∈ s.exprs, id ∈ e.idents) ∨ ∃ c ∈ s.children, id ∈ c.tree.met Node.idents := by
  cases s <;> simp [tree, children, exprs, Node.idents, trees_eq, treesOption_eq, treesCases_eq,
    Expr.trees_eq, Expr.met_tree, List.flatMap_assoc] <;> grind

/-- An identifier is met if some statement names it. -/
theorem mem_met_idents (s : Stmt) {id : Ident} :
    id ∈ s.tree.met Node.idents ↔ id ∈ s.preorder.flatMap fun t => Expr.identsOf t.exprs := by
  induction s using tree_induction with
  | h s ih =>
    have hbelow := exists_congr fun c => and_congr_right (ih c)
    rw [met_parts, hbelow, preorder_eq, List.flatMap_cons, List.mem_append, Expr.identsOf_eq,
      List.mem_flatMap, forest, List.flatMap_assoc, List.mem_flatMap (b := id) (l := s.children)]

end Stmt

/-! ## The rules -/

/-- Hooks that collect something for what they meet have it for all nodes at last. -/
theorem Visitor.walk_collects {σ α β : Type} {v : Visitor σ} (hv : v.Looks) {p : σ → List β}
    {g : Node → List α} {k : α → List β}
    (hp : ∀ call st, p ((v.ask call).run st).2 = p st ++ (call.met g).flatMap k) (s : Stmt)
    (st : σ) : p ((v.walk s).run st).2 = p st ++ (s.tree.met g).flatMap k := by
  have hafter (calls : List HookCall) :
      p (v.after calls st) = p st ++ (calls.flatMap (HookCall.met g)).flatMap k := by
    induction calls generalizing st with
    | nil => exact (List.append_nil _).symm
    | cons call calls ih =>
      rw [List.flatMap_cons, List.flatMap_append, ← List.append_assoc, ← hp]
      exact ih _
  rw [walk_looks hv, hafter, met]

/-- The first rule reports what is cut off, statement by statement. -/
theorem LintRule.unreachableCode_eq (s : Script) :
    LintRule.unreachableCode.apply s = s.body.preorder.filterMap Stmt.unreachable? := by
  have hlooks : finder.Looks := by
    rintro ((_ | _) | (_ | _)) st <;> rfl
  have hfound : ∀ call st, ((finder.ask call).run st).2 =
      st ++ (call.met Node.stmts).flatMap fun s => s.unreachable?.toList := by
    rintro ((s | _) | (_ | _)) st
    · rw [HookCall.met, Node.stmts, List.flatMap_singleton]
      rfl
    all_goals exact (List.append_nil st).symm
  have hfindings := Visitor.walk_collects (p := id) hlooks hfound s.body []
  rw [Stmt.met_stmts, ← List.filterMap_eq_flatMap_toList] at hfindings
  exact hfindings

/-- The second one knows every slot that is named. -/
theorem Stmt.not_mem_namedSlots {s : Stmt} {x : Introduced} (hx : x ∈ s.unusedVariables) :
    x.ident.slot ∉ s.namedSlots := by
  have hlooks : collector.Looks := by
    rintro ((_ | _) | (_ | _)) st <;> rfl
  have hnames : ∀ call st, ((collector.ask call).run st).2.named =
      st.named ++ (call.met Node.idents).flatMap fun id => [id.slot] := by
    rintro ((_ | e) | (_ | _)) st
    · exact (List.append_nil _).symm
    · rw [← List.map_eq_flatMap]
      rfl
    all_goals exact (List.append_nil _).symm
  intro hnamed
  obtain ⟨id, hid, hslot⟩ := List.mem_map.mp hnamed
  have hmet : x.ident.slot ∈ ((collector.walk s).run ⟨[], []⟩).2.named := by
    rw [Visitor.walk_collects hlooks hnames]
    exact List.mem_flatMap.mpr ⟨id, s.mem_met_idents.mpr hid, hslot ▸ List.mem_singleton_self _⟩
  have hunused := (List.mem_filter.mp hx).2
  simp [hmet] at hunused

end Vigil
