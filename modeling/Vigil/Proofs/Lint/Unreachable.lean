import Vigil.Proofs.Build.Numbers
import Vigil.Proofs.Trigger.Confined
import Vigil.Proofs.Walk.Looks

/-!
# Vigil.Proofs.Lint.Unreachable — statements that never start

A list in which something follows a jump is reported, once, and for the
statement right after the first jump (`Stmt.unreachable?_eq_some`). What is live
is what execution can go on to from the scripts that are run (`Stmt.Live`). Where
numbers differ, neither the statement that is reported nor any that stands after
it in its list is live, nor anything inside them (`Stmt.CutOff.not_live`), so they
never start, whatever the host does (`Script.unreachable_never_starts`).
-/

namespace Vigil

namespace Stmt

variable {ss : List Stmt}

/-! ## Reports -/

/-- Whether the statement is a list in which a jump is followed by another
statement. -/
def cutsOff : Stmt → Bool
  | .list _ body => body.dropLast.any fun s => s.tag.isJump
  | _ => false

/-- A list whose first jump is `jump`, with `after` right after it and then
`rest`. -/
inductive CutOff : Stmt → (jump after : Stmt) → (rest : List Stmt) → Prop where
  | list (i : StmtInfo) (before : List Stmt) (jump after : Stmt) (rest : List Stmt)
      (hbefore : ∀ s ∈ before, s.tag.isJump = false) (hjump : jump.tag.isJump) :
      CutOff (.list i (before ++ jump :: after :: rest)) jump after rest

theorem isSome_firstCutOff? (body : List Stmt) :
    (firstCutOff? body).isSome = body.dropLast.any fun s => s.tag.isJump := by
  fun_induction firstCutOff? body with
  | case1 s after rest hs => simp [hs]
  | case2 s after rest hs ih => simp [hs, ih]
  | case3 body hshort =>
    cases body with
    | nil => rfl
    | cons s rest =>
      cases rest with
      | nil => rfl
      | cons after rest => exact absurd rfl (hshort s after rest)

theorem isSome_unreachable? (s : Stmt) : s.unreachable?.isSome = s.cutsOff := by
  cases s with
  | list i body => rw [unreachable?, Option.isSome_map, isSome_firstCutOff?, cutsOff]
  | _ => rfl

theorem firstCutOff?_eq_some {body : List Stmt} {jump after : Stmt}
    (h : firstCutOff? body = some (jump, after)) : ∃ before rest,
      body = before ++ jump :: after :: rest ∧ (∀ s ∈ before, s.tag.isJump = false) ∧
        jump.tag.isJump := by
  fun_induction firstCutOff? body with
  | case1 s after' rest hs =>
    cases h
    refine ⟨[], rest, rfl, ?_, hs⟩
    intro s hs
    cases hs
  | case2 s after' rest hs ih =>
    obtain ⟨before, rest', heq, hbefore, hjump⟩ := ih h
    refine ⟨s :: before, rest', ?_, ?_, hjump⟩
    · rw [heq, List.cons_append]
    · intro t ht
      rcases List.mem_cons.mp ht with rfl | ht
      · exact Bool.eq_false_iff.mpr hs
      · exact hbefore t ht
  | case3 body hshort => cases h

/-- A report is about the statement right after the first jump of a list. -/
theorem unreachable?_eq_some {s : Stmt} {finding : Finding} (h : s.unreachable? = some finding) :
    ∃ jump after rest, s.CutOff jump after rest ∧
      finding = .unreachable jump.tag after.span := by
  cases s with
  | list i body =>
    obtain ⟨⟨jump, after⟩, hfirst, rfl⟩ := Option.map_eq_some_iff.mp h
    obtain ⟨before, rest, rfl, hbefore, hjump⟩ := firstCutOff?_eq_some hfirst
    exact ⟨jump, after, rest, .list i before jump after rest hbefore hjump, rfl⟩
  | _ => cases h

/-- There is one report for each list that something is cut off from. -/
theorem forall₂_unreachable? (ss : List Stmt) :
    List.Forall₂ (fun s finding => ∃ jump after rest, s.CutOff jump after rest ∧
      finding = Finding.unreachable jump.tag after.span)
      (ss.filter cutsOff) (ss.filterMap unreachable?) := by
  induction ss with
  | nil => exact .nil
  | cons s ss ih =>
    have hsome := isSome_unreachable? s
    cases hs : s.unreachable? with
    | none =>
      rw [hs] at hsome
      rw [List.filter_cons_of_neg (by simp [← hsome]), List.filterMap_cons_none hs]
      exact ih
    | some finding =>
      rw [hs] at hsome
      rw [List.filter_cons_of_pos (by simp [← hsome]), List.filterMap_cons_some hs]
      exact .cons (unreachable?_eq_some hs) ih

/-! ## What is live -/

/-- What execution can go on to from some statements. -/
inductive Live (roots : List Stmt) : Stmt → Prop where
  | root {s : Stmt} (hs : s ∈ roots) : Live roots s
  | enter {s t : Stmt} (hs : Live roots s) (ht : t ∈ s.entered) : Live roots t

variable {roots : List Stmt} {s t jump after : Stmt} {rest : List Stmt}

theorem closed_live (roots : List Stmt) : World.Closed fun _ => Live roots :=
  fun _ _ hs _ ht => .enter hs ht

theorem preorder_subset_of_mem_forest (h : s ∈ forest ss) : s.preorder ⊆ forest ss := by
  obtain ⟨root, hroot, hs⟩ := List.mem_flatMap.mp h
  exact List.Subset.trans (preorder_subset hs) (preorder_subset_forest hroot)

theorem child_mem_forest (h : s ∈ forest ss) (ht : t ∈ s.children) : t ∈ forest ss :=
  preorder_subset_of_mem_forest h (forest_children_subset s (mem_forest_self ht))

theorem Live.mem_forest (h : Live roots s) : s ∈ forest roots := by
  induction h with
  | root hs => exact mem_forest_self hs
  | enter _ ht ih => exact child_mem_forest ih (entered_subset _ ht)

/-- What is in a tree is its root or right below a statement of the tree. -/
theorem eq_or_child_of_mem_preorder (h : s ∈ t.preorder) :
    s = t ∨ ∃ p ∈ t.preorder, s ∈ p.children := by
  induction t using tree_induction with
  | h t ih =>
    rw [preorder_eq] at h
    rcases List.mem_cons.mp h with rfl | hbelow
    · exact .inl rfl
    · obtain ⟨c, hc, hs⟩ := List.mem_flatMap.mp hbelow
      rcases ih c hc hs with rfl | ⟨p, hp, hs⟩
      · exact .inr ⟨t, t.self_mem_preorder, hc⟩
      · exact .inr ⟨p, forest_children_subset t (preorder_subset_forest hc hp), hs⟩

theorem Distinct.eq_of_id (h : Distinct ss) (hs : s ∈ ss) (ht : t ∈ ss) (hid : s.id = t.id) :
    s = t := List.inj_on_of_nodup_map h hs ht hid

/-- Nothing is live in a tree whose root can not be gone on to. -/
theorem not_live_of_root (h : Distinct (forest roots)) {q : Stmt} (hq : q ∈ forest roots)
    (ht : t ∈ q.children) (hdead : t ∉ q.entered) (hs : Live roots s) : s ∉ t.preorder := by
  have htree := preorder_subset_of_mem_forest (child_mem_forest hq ht)
  induction hs with
  | @root s hs =>
    intro hin
    -- a root is below no statement, neither below the list nor inside the tree
    rcases eq_or_child_of_mem_preorder hin with rfl | ⟨p, hp, hchild⟩
    · exact h.root_not_child hs hq (List.mem_map_of_mem ht)
    · exact h.root_not_child hs (htree hp) (List.mem_map_of_mem hchild)
  | @enter s c hs hc ih =>
    intro hin
    have hchild := entered_subset s hc
    rcases eq_or_child_of_mem_preorder hin with rfl | ⟨p, hp, hchild'⟩
    · cases h.parent_unique hs.mem_forest hq hchild ht
      exact hdead hc
    · cases h.parent_unique hs.mem_forest (htree hp) hchild hchild'
      exact ih hp

theorem upToJump_append {before : List Stmt} (hbefore : ∀ s ∈ before, s.tag.isJump = false)
    (hjump : jump.tag.isJump) (rest : List Stmt) :
    upToJump (before ++ jump :: rest) = before ++ [jump] := by
  induction before with
  | nil => rw [List.nil_append, upToJump, if_pos hjump, List.nil_append]
  | cons s before ih =>
    obtain ⟨hs, hbefore⟩ := List.forall_mem_cons.mp hbefore
    rw [List.cons_append, upToJump, if_neg (by simp [hs]), ih hbefore, List.cons_append]

theorem Distinct.roots_nodup (h : Distinct (forest ss)) : ss.Nodup := by
  refine List.Pairwise.imp_of_mem ?_ h.split.2
  rintro s t - - hd rfl
  exact hd (List.mem_map_of_mem s.self_mem_preorder) (List.mem_map_of_mem s.self_mem_preorder)

/-- What a jump cuts off is not live, nor is anything inside. -/
theorem CutOff.not_live (h : Distinct (forest roots)) {q : Stmt} (hq : q ∈ forest roots)
    (hcut : q.CutOff jump after rest) (hs : Live roots s) : s ∉ forest (after :: rest) := by
  intro hin
  obtain ⟨t, ht, hin⟩ := List.mem_flatMap.mp hin
  obtain ⟨root, hroot, htree⟩ := List.mem_flatMap.mp hq
  have hbelow := ((h.tree hroot).subtree htree).below
  cases hcut with
  | list i before _ _ _ hbefore hjump =>
    have hchild : t ∈ before ++ jump :: after :: rest :=
      List.mem_append_right _ (List.mem_cons_of_mem _ ht)
    refine not_live_of_root h hq (t := t) hchild ?_ hs hin
    show t ∉ upToJump _
    rw [upToJump_append hbefore hjump]
    -- the list has every statement once, and `t` stands after the jump
    have hnodup : (before ++ [jump] ++ after :: rest).Nodup := by
      rw [List.append_assoc]
      exact hbelow.roots_nodup
    exact fun hmem => (List.nodup_append.mp hnodup).2.2 t hmem t ht rfl

end Stmt

/-! ## Histories -/

/-- What is not live never starts. -/
theorem World.Confined.count_eq_zero {roots : List Stmt} {w : World}
    (h : w.Confined fun _ => Stmt.Live roots) (hdistinct : Stmt.Distinct (Stmt.forest roots))
    {s : Stmt} (hs : s ∈ Stmt.forest roots) (hdead : ¬ Stmt.Live roots s) :
    w.journal.count s.id = 0 := by
  refine List.countP_eq_zero.mpr fun e he => ?_
  cases e with
  | start i time =>
    intro hstart
    have hi : i = s.id := by
      by_contra hne
      simp [Entry.startOf?, hne] at hstart
    obtain ⟨-, t, ht, hid⟩ := h.started i time he
    cases hdistinct.eq_of_id ht.mem_forest hs (hid.trans hi)
    exact hdead ht
  | look | body | defer => simp [Entry.startOf?]

/-- The bodies of some units. -/
def Script.bodiesOf (units : List (Doc.Unit × StmtId)) : List Stmt :=
  units.map fun a => (Script.build a.1 a.2).body

theorem Script.distinct_bodiesOf {units : List (Doc.Unit × StmtId)} (h : Script.Apart units) :
    Stmt.Distinct (Stmt.forest (Script.bodiesOf units)) := by
  have hforest : Stmt.forest (Script.bodiesOf units) = Script.stmtsOf units :=
    List.flatMap_map _ _ _
  rw [hforest]
  exact Script.nodup_stmtsOf h

/-- Every list of a unit in which something follows a jump is reported exactly
once, for the statement right after its first jump. And whatever the host does
with units numbered apart, and whatever came of it, neither this statement nor
one after it in the list ever started, nor any statement inside of them. -/
theorem Script.unreachable_never_starts {units : List (Doc.Unit × StmtId)}
    (hapart : Script.Apart units) {script : Script}
    (hscript : script.body ∈ Script.bodiesOf units) :
    List.Forall₂ (fun s finding => ∃ jump after rest, s.CutOff jump after rest ∧
        finding = Finding.unreachable jump.tag after.span)
      (script.body.preorder.filter Stmt.cutsOff) (LintRule.unreachableCode.apply script) ∧
    ∀ s ∈ script.body.preorder, ∀ jump after rest, s.CutOff jump after rest →
      ∀ now limits w,
        World.EverIn (fun _ body => body ∈ Script.bodiesOf units) (.start now limits) w →
        ∀ d ∈ Stmt.forest (after :: rest), w.journal.count d.id = 0 := by
  rw [LintRule.unreachableCode_eq]
  refine ⟨Stmt.forall₂_unreachable? _, ?_⟩
  intro s hs jump after rest hcut now limits w hw d hd
  have hdistinct := Script.distinct_bodiesOf hapart
  have hq := Stmt.preorder_subset_forest hscript hs
  have hconfined : w.Confined fun _ => Stmt.Live (Script.bodiesOf units) :=
    (hw.mono fun _ _ h => .root h).confined (Stmt.closed_live _)
  refine hconfined.count_eq_zero hdistinct ?_ fun hlive => hcut.not_live hdistinct hq hlive hd
  obtain ⟨t, ht, hd⟩ := List.mem_flatMap.mp hd
  have hchild : t ∈ s.children := by
    cases hcut with
    | list i before => exact List.mem_append_right before (List.mem_cons_of_mem _ ht)
  exact Stmt.preorder_subset_of_mem_forest (Stmt.child_mem_forest hq hchild) hd

/-- A unit that jumps in the body of a `when` and in a loop. A `when` and a list
stand where nothing reaches them. -/
def jumpsEarly : Doc.Unit :=
  let row (n : Nat) : Span := ⟨n, 1, n, 9⟩
  let hello (n : Nat) : Doc.Stmt := .print [.const (.str "hello")] (row n)
  let yes : Doc.Expr := .const (.bool true)
  let body : Doc.Stmt := .list [hello 2, .return none (row 3), hello 4]
  let inner : Doc.Stmt := .list [.break (row 8), hello 9] (row 8)
  ⟨"jumps", .event, none, [],
    .list [.when yes body none false (row 1),
      .while yes (.list [.break (row 6), .when yes (hello 7) none false (row 7), inner])
        (row 5), hello 10]⟩

/-- Two runs in one frame, with a pass after each of them. Three lists are
reported, one of them inside of what another report is about. -/
theorem Script.unreachable_never_starts_jumpsEarly :
    let script := Script.build jumpsEarly 0
    Script.Apart [(jumpsEarly, 0)] ∧
    LintRule.unreachableCode.apply script = [.unreachable .return ⟨4, 1, 4, 9⟩,
      .unreachable .break ⟨7, 1, 7, 9⟩, .unreachable .break ⟨9, 1, 9, 9⟩] ∧
    (script.body.preorder.filter Stmt.cutsOff).length = 3 ∧
    ∃ w, World.EverIn (fun _ body => body ∈ Script.bodiesOf [(jumpsEarly, 0)])
        (.start default default) w ∧
      script.body.preorder.map (fun s => w.journal.count s.id) =
        [2, 2, 2, 2, 2, 0, 2, 2, 2, 0, 0, 0, 0, 0, 2] ∧
      ∀ s ∈ script.body.preorder, ∀ jump after rest, s.CutOff jump after rest →
        ∀ d ∈ Stmt.forest (after :: rest), w.journal.count d.id = 0 := by
  let script := Script.build jumpsEarly 0
  let w₁ := ((HostOp.newFrame 0 none).perform 9).leaves (.start default default)
  let w₂ := ((HostOp.run script ⟨0⟩).perform 9).leaves w₁
  let w₃ := (HostOp.checkAll.perform 9).leaves w₂
  let w₄ := ((HostOp.run script ⟨0⟩).perform 9).leaves w₃
  let w₅ := (HostOp.checkAll.perform 9).leaves w₄
  have hapart : Script.Apart [(jumpsEarly, 0)] := by decide +kernel
  have hmem : script.body ∈ Script.bodiesOf [(jumpsEarly, 0)] :=
    List.mem_map_of_mem (a := (jumpsEarly, 0)) List.mem_cons_self
  have hfindings : LintRule.unreachableCode.apply script = [.unreachable .return ⟨4, 1, 4, 9⟩,
      .unreachable .break ⟨7, 1, 7, 9⟩, .unreachable .break ⟨9, 1, 9, 9⟩] := by decide +kernel
  have hcounts : script.body.preorder.map (fun s => w₅.journal.count s.id) =
      [2, 2, 2, 2, 2, 0, 2, 2, 2, 0, 0, 0, 0, 0, 2] := by
    decide +kernel
  have hw : World.EverIn (fun _ body => body ∈ Script.bodiesOf [(jumpsEarly, 0)])
      (.start default default) w₅ := by
    have h₁ : World.EverIn (fun _ body => body ∈ Script.bodiesOf [(jumpsEarly, 0)])
      (.start default default) w₁ := .perform .refl (.newFrame 0 none) 9 trivial
    have h₂ := h₁.perform (.run script ⟨0⟩) 9 hmem
    have h₃ := h₂.perform .checkAll 9 trivial
    have h₄ := h₃.perform (.run script ⟨0⟩) 9 hmem
    exact h₄.perform .checkAll 9 trivial
  obtain ⟨hreports, hdead⟩ := @Script.unreachable_never_starts _ hapart script hmem
  refine ⟨hapart, hfindings, ?_, w₅, hw, hcounts, ?_⟩
  · rw [hreports.length_eq, hfindings]
    rfl
  · intro s hs jump after rest hcut d hd
    exact hdead s hs jump after rest hcut default default w₅ hw d hd

end Vigil
