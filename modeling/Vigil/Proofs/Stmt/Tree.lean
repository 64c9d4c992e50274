import Vigil.Stmt.Basic
import Mathlib.Data.List.Nodup
import Mathlib.Data.List.Pairwise

/-!
# Vigil.Proofs.Stmt.Tree — statements as trees whose nodes differ

A statement is a node with its children below it (`Stmt.preorder_eq`), and what
holds of a node when it holds of its children holds of every statement
(`Stmt.tree_induction`). Where no two statements of a forest have the same
number, two subtrees have nothing in common unless one is in the other
(`Distinct.place`), and no statement has two parents (`Distinct.parent_unique`).
-/

namespace Vigil

mutual

/-- Identifiers an expression names. -/
def Expr.idents : Expr → List Ident
  | .name i _ => [i]
  | .const .. | .error _ => []
  | .unary _ e _ | .size e _ => idents e
  | .binary _ l r _ | .assign l r _ => idents l ++ idents r
  | .index t is _ => idents t ++ identsOf is
  | .member es t _ => identsOf es ++ idents t

def Expr.identsOf : List Expr → List Ident
  | [] => []
  | e :: es => idents e ++ identsOf es

end

theorem Expr.identsOf_eq (es : List Expr) : identsOf es = es.flatMap idents := by
  induction es with
  | nil => rfl
  | cons e es ih =>
    rw [identsOf, ih]
    rfl

def Labels.exprs : Labels → List Expr
  | .values es => es
  | .types _ | .default => []

namespace Stmt

/-- Expressions of the statement itself, those of its parts left out. -/
def exprs : Stmt → List Expr
  | .expr _ e | .add _ e | .delete _ e => [e]
  | .print _ args | .event _ _ args => args
  | .cond _ test _ _ | .while _ test _ => [test]
  | .for _ _ _ target _ => [target]
  | .switch _ selector cases _ => selector :: cases.flatMap fun c => c.labels.exprs
  | .return _ value => value.toList
  | .when _ test _ timeout _ _ => test :: timeout.toList
  | .list .. | .bodyList .. | .next _ | .break _ | .fallthrough _ | .init .. | .null _ => []

/-- Slots named anywhere in a statement. -/
def namedSlots (s : Stmt) : List Nat :=
  (s.preorder.flatMap fun s => Expr.identsOf s.exprs).map (·.slot)

/-- The statements right below a statement, the bodies of a `when` included. -/
def children : Stmt → List Stmt
  | .list _ body | .bodyList _ body => body
  | .cond _ _ thenBody elseBody => [thenBody, elseBody]
  | .while _ _ body | .for _ _ _ _ body => [body]
  | .switch _ _ cases _ => cases.map Case.body
  | .when _ _ body _ timeoutBody _ => body :: timeoutBody.toList
  | _ => []

/-- All statements of some trees, one tree after the other. -/
def forest (ss : List Stmt) : List Stmt := ss.flatMap preorder

theorem preorderList_eq (ss : List Stmt) : preorderList ss = forest ss := by
  induction ss with
  | nil => rfl
  | cons s ss ih =>
    rw [preorderList, ih]
    rfl

theorem preorderCases_eq (cs : List Case) : preorderCases cs = forest (cs.map Case.body) := by
  induction cs with
  | nil => rfl
  | cons c cs ih =>
    obtain ⟨labels, body, span⟩ := c
    rw [preorderCases, ih]
    rfl

theorem preorder_eq (s : Stmt) : s.preorder = s :: forest s.children := by
  cases s with
  | list i body | bodyList i body => rw [preorder, preorderList_eq, children]
  | cond i test thenBody elseBody => simp [preorder, children, forest]
  | «while» i test body => simp [preorder, children, forest]
  | «for» i vars valueVar target body => simp [preorder, children, forest]
  | switch i selector cases dispatch => rw [preorder, preorderCases_eq, children]
  | «when» i test body timeout timeoutBody isReturn =>
    cases timeoutBody <;> simp [preorder, children, forest]
  | _ => rfl

theorem self_mem_preorder (s : Stmt) : s ∈ s.preorder := by
  rw [preorder_eq]
  exact List.mem_cons_self

theorem preorder_subset_forest {s : Stmt} {ss : List Stmt} (hs : s ∈ ss) :
    s.preorder ⊆ forest ss := fun _ ht => List.mem_flatMap.mpr ⟨s, hs, ht⟩

theorem mem_forest_self {s : Stmt} {ss : List Stmt} (hs : s ∈ ss) : s ∈ forest ss :=
  preorder_subset_forest hs s.self_mem_preorder

theorem forest_children_subset (s : Stmt) : forest s.children ⊆ s.preorder := by
  rw [preorder_eq]
  exact List.subset_cons_self _ _

/-- What holds of a statement when it holds of those right below it holds of
every statement. -/
theorem tree_induction {P : Stmt → Prop} (h : ∀ s, (∀ c ∈ s.children, P c) → P s) (s : Stmt) :
    P s := by
  induction hn : s.preorder.length using Nat.strongRecOn generalizing s with
  | _ n ih =>
    refine h s fun c hc => ih _ ?_ c rfl
    have hle : c.preorder.length ≤ (forest s.children).length :=
      (List.sublist_flatten_of_mem (List.mem_map_of_mem hc)).length_le
    rw [← hn, preorder_eq s, List.length_cons]
    omega

/-- Below a statement of a tree is nothing that is not in the tree. -/
theorem preorder_subset {s t : Stmt} (h : t ∈ s.preorder) : t.preorder ⊆ s.preorder := by
  induction s using tree_induction with
  | h s ih =>
    rw [preorder_eq] at h
    rcases List.mem_cons.mp h with rfl | hbelow
    · exact List.Subset.refl _
    · obtain ⟨c, hc, ht⟩ := List.mem_flatMap.mp hbelow
      have hforest := List.Subset.trans (ih c hc ht) (preorder_subset_forest hc)
      exact List.Subset.trans hforest (forest_children_subset s)

theorem children_subset {s t : Stmt} (h : t ∈ s.preorder) : t.children ⊆ s.preorder :=
  fun _ hc => preorder_subset h (forest_children_subset t (mem_forest_self hc))

/-! ## Distinct numbers -/

/-- The numbers of some statements. -/
def numbers (ss : List Stmt) : List StmtId := ss.map Stmt.id

theorem numbers_subset {ss ss' : List Stmt} (h : ss ⊆ ss') : numbers ss ⊆ numbers ss' :=
  List.map_subset _ h

/-- No two of the statements have the same number. -/
def Distinct (ss : List Stmt) : Prop := (numbers ss).Nodup

variable {s t b q q' : Stmt} {ss : List Stmt}

theorem Distinct.root (h : Distinct s.preorder) : s.id ∉ numbers (forest s.children) := by
  rw [preorder_eq] at h
  exact (List.nodup_cons.mp h).1

theorem Distinct.below (h : Distinct s.preorder) : Distinct (forest s.children) := by
  rw [preorder_eq] at h
  exact (List.nodup_cons.mp h).2

theorem Distinct.split (h : Distinct (forest ss)) :
    (∀ s ∈ ss, Distinct s.preorder) ∧
      ss.Pairwise fun s t => List.Disjoint (numbers s.preorder) (numbers t.preorder) := by
  unfold Distinct numbers forest at h
  rw [List.map_flatMap] at h
  exact List.nodup_flatMap.mp h

theorem Distinct.tree (h : Distinct (forest ss)) (hs : s ∈ ss) : Distinct s.preorder :=
  h.split.1 s hs

theorem Distinct.subtree (h : Distinct s.preorder) (ht : t ∈ s.preorder) : Distinct t.preorder := by
  induction s using tree_induction with
  | h s ih =>
    rw [preorder_eq] at ht
    rcases List.mem_cons.mp ht with rfl | ht
    · exact h
    · obtain ⟨c, hc, ht⟩ := List.mem_flatMap.mp ht
      exact ih c hc (h.below.tree hc) ht

/-- Two trees of a forest share no number. -/
theorem Distinct.apart (h : Distinct (forest ss)) (hs : s ∈ ss) (ht : t ∈ ss) (hne : s ≠ t) :
    List.Disjoint (numbers s.preorder) (numbers t.preorder) := by
  have hsymm : Std.Symm fun s t : Stmt =>
    List.Disjoint (numbers s.preorder) (numbers t.preorder) := ⟨fun _ _ hd _ hi hj => hd hj hi⟩
  exact h.split.2.forall hs ht hne

/-- A root is right below no statement. -/
theorem Distinct.root_not_child (h : Distinct (forest ss)) (hs : s ∈ ss) (hq : q ∈ forest ss) :
    s.id ∉ numbers q.children := by
  intro hchild
  obtain ⟨t, ht, hq⟩ := List.mem_flatMap.mp hq
  have hbelow : numbers q.children ⊆ numbers (forest t.children) := by
    refine numbers_subset fun c hc => ?_
    rw [preorder_eq] at hq
    rcases List.mem_cons.mp hq with rfl | hq
    · exact mem_forest_self hc
    · obtain ⟨u, hu, hq⟩ := List.mem_flatMap.mp hq
      exact preorder_subset_forest hu (children_subset hq hc)
  by_cases hst : s = t
  · subst hst
    exact (h.tree hs).root (hbelow hchild)
  · have hin : s.id ∈ numbers s.preorder := List.mem_map_of_mem s.self_mem_preorder
    refine h.apart hs ht hst hin ?_
    exact numbers_subset (forest_children_subset t) (hbelow hchild)

/-- The numbers a statement and its children have. -/
def family (s : Stmt) : List StmtId := s.id :: numbers s.children

theorem family_subset (h : q ∈ s.preorder) : q.family ⊆ numbers s.preorder :=
  List.cons_subset.mpr ⟨List.mem_map_of_mem h, numbers_subset (children_subset h)⟩

/-- Two statements of a forest: the one is in the tree of the other, or has it
as a child, or neither it nor its children are there. -/
def Placed (b q : Stmt) : Prop :=
  q ∈ b.preorder ∨ b ∈ q.children ∨ List.Disjoint q.family (numbers b.preorder)

theorem placed_of_trees (h : Distinct (forest ss))
    (htrees : ∀ s ∈ ss, ∀ b ∈ s.preorder, ∀ q ∈ s.preorder, Placed b q)
    (hb : b ∈ forest ss) (hq : q ∈ forest ss) : Placed b q := by
  obtain ⟨s, hs, hb⟩ := List.mem_flatMap.mp hb
  obtain ⟨t, ht, hq⟩ := List.mem_flatMap.mp hq
  by_cases hst : s = t
  · subst hst
    exact htrees s hs b hb q hq
  · refine .inr (.inr fun i hi hib => ?_)
    exact h.apart hs ht hst (numbers_subset (preorder_subset hb) hib) (family_subset hq hi)

theorem placed_of_tree (s : Stmt) :
    Distinct s.preorder → ∀ b ∈ s.preorder, ∀ q ∈ s.preorder, Placed b q := by
  induction s using tree_induction with
  | h s ih =>
    intro h b hb q hq
    have hsub : ∀ c ∈ s.children, ∀ b ∈ c.preorder, ∀ q ∈ c.preorder, Placed b q :=
      fun c hc => ih c hc (h.below.tree hc)
    rw [preorder_eq] at hb hq
    rcases List.mem_cons.mp hb with rfl | hb
    · left
      rw [preorder_eq]
      exact hq
    · rcases List.mem_cons.mp hq with rfl | hq
      · -- the root, whose children may be `b` or above it
        by_cases hchild : b ∈ q.children
        · exact .inr (.inl hchild)
        · refine .inr (.inr fun i hi hib => ?_)
          obtain ⟨c, hc, hbc⟩ := List.mem_flatMap.mp hb
          have hbelow : b ∈ forest c.children := by
            rw [preorder_eq] at hbc
            rcases List.mem_cons.mp hbc with rfl | hbelow
            · exact absurd hc hchild
            · exact hbelow
          have hnumbers : numbers b.preorder ⊆ numbers (forest c.children) := by
            obtain ⟨u, hu, hbu⟩ := List.mem_flatMap.mp hbelow
            exact numbers_subset (List.Subset.trans (preorder_subset hbu)
              (preorder_subset_forest hu))
          rcases List.mem_cons.mp hi with rfl | hi
          · have hall := List.Subset.trans hnumbers (numbers_subset (List.Subset.trans
              (forest_children_subset c) (preorder_subset_forest hc)))
            exact h.root (hall hib)
          · obtain ⟨d, hd, rfl⟩ := List.mem_map.mp hi
            by_cases hcd : c = d
            · subst hcd
              exact (h.below.tree hc).root (hnumbers hib)
            · refine h.below.apart hc hd hcd ?_ (List.mem_map_of_mem d.self_mem_preorder)
              exact numbers_subset (forest_children_subset c) (hnumbers hib)
      · exact placed_of_trees h.below hsub hb hq

theorem Distinct.place (h : Distinct (forest ss)) (hb : b ∈ forest ss) (hq : q ∈ forest ss) :
    Placed b q :=
  placed_of_trees h (fun s hs => placed_of_tree s (h.tree hs)) hb hq

theorem parent_unique_of_trees (h : Distinct (forest ss))
    (htrees : ∀ s ∈ ss, ∀ q ∈ s.preorder, ∀ q' ∈ s.preorder, b ∈ q.children →
      b ∈ q'.children → q = q') (hq : q ∈ forest ss) (hq' : q' ∈ forest ss)
    (hb : b ∈ q.children) (hb' : b ∈ q'.children) : q = q' := by
  obtain ⟨s, hs, hq⟩ := List.mem_flatMap.mp hq
  obtain ⟨t, ht, hq'⟩ := List.mem_flatMap.mp hq'
  by_cases hst : s = t
  · subst hst
    exact htrees s hs q hq q' hq' hb hb'
  · exact absurd (List.mem_map_of_mem (children_subset hq' hb'))
      (h.apart hs ht hst (List.mem_map_of_mem (children_subset hq hb)))

theorem parent_unique_of_tree (s : Stmt) :
    Distinct s.preorder → ∀ q ∈ s.preorder, ∀ q' ∈ s.preorder, b ∈ q.children →
      b ∈ q'.children → q = q' := by
  induction s using tree_induction with
  | h s ih =>
    intro h q hq q' hq' hb hb'
    rw [preorder_eq] at hq hq'
    have hchild : ∀ {p : Stmt}, b ∈ p.children → b.id ∈ numbers p.children :=
      fun hp => List.mem_map_of_mem hp
    rcases List.mem_cons.mp hq with rfl | hq <;> rcases List.mem_cons.mp hq' with rfl | hq'
    · rfl
    · exact absurd (hchild hb') (h.below.root_not_child hb hq')
    · exact absurd (hchild hb) (h.below.root_not_child hb' hq)
    · exact parent_unique_of_trees h.below (fun c hc => ih c hc (h.below.tree hc)) hq hq' hb hb'

/-- No statement has two parents. -/
theorem Distinct.parent_unique (h : Distinct (forest ss)) (hq : q ∈ forest ss)
    (hq' : q' ∈ forest ss) (hb : b ∈ q.children) (hb' : b ∈ q'.children) : q = q' :=
  parent_unique_of_trees h (fun s hs => parent_unique_of_tree s (h.tree hs)) hq hq' hb hb'

end Stmt

end Vigil
