import Mathlib.Data.List.Forall2
import Vigil.Proofs.Build.Order

/-!
# Vigil.Proofs.Build.Placed — statements of the source are placed once

A statement that stands in the source is placed when it is complete, under its
number. So what is placed while a unit is built are the statements of its document,
each once, and each after those that stand in it (`Doc.Stmt.postorder`). Statements
that are only made up on the way, an empty branch or the one that makes the
collections of a unit, are numbered and not placed.
-/

namespace Vigil

namespace Doc.Stmt

theorem sizeOf_lt_of_mem_parts {d p : Stmt} (h : p ∈ d.parts) : sizeOf p < sizeOf d := by
  cases d with
  | list body | bodyList body =>
    have hlt : sizeOf p < sizeOf body := List.sizeOf_lt_of_mem h
    grind
  | cond _ _ elseBody => cases elseBody <;> grind [parts]
  | «while» | «for» => grind [parts]
  | switch _ cases =>
    obtain ⟨⟨_, _, body, _⟩, hc, rfl⟩ := List.mem_map.mp h
    have hlt := List.sizeOf_lt_of_mem hc
    grind [Case.body]
  | when _ _ timeout => rcases timeout with _ | ⟨_, _ | _⟩ <;> grind [parts, Timeout.parts]
  | _ => exact absurd h List.not_mem_nil

/-- The statement and all that stand in it, each after its parts. -/
def postorder (d : Stmt) : List Stmt := (d.parts.attach.flatMap fun p => postorder p.1) ++ [d]
termination_by sizeOf d
decreasing_by exact sizeOf_lt_of_mem_parts p.2

theorem postorder_eq (d : Stmt) : d.postorder = d.parts.flatMap postorder ++ [d] := by
  rw [postorder, List.flatMap_def, List.attach_map_val, ← List.flatMap_def]

end Doc.Stmt

/-- The place of a statement that has the form and the location of the document's. -/
def Stmt.Marks (built : List Stmt) (d : Doc.Stmt) (p : Span × StmtId) : Prop :=
  ∃ t ∈ built, t.tag = d.tag ∧ t.span = d.span ∧ p = (t.span, t.id)

theorem Stmt.Marks.mono {built built' : List Stmt} (h : built ⊆ built') {d : Doc.Stmt}
    {p : Span × StmtId} (hp : Marks built d p) : Marks built' d p := by
  obtain ⟨t, ht, hrest⟩ := hp
  exact ⟨t, h ht, hrest⟩

namespace BuildM

/-- From one scope to the next these places were taken, one after the other, and
the numbers in them are new and rise. -/
structure Places (s : Scope) (new : List (Span × StmtId)) (s' : Scope) : Prop where
  placed : s'.placed.toList = s.placed.toList ++ new
  next : s.nextStmt ≤ s'.nextStmt
  rising : new.Pairwise fun p q => p.2 < q.2
  range : ∀ p ∈ new, s.nextStmt ≤ p.2 ∧ p.2 < s'.nextStmt

namespace Places

variable {s s₁ s₂ : Scope} {new new' : List (Span × StmtId)}

theorem nil (hplaced : s₁.placed = s.placed) (hnext : s.nextStmt ≤ s₁.nextStmt) :
    Places s [] s₁ where
  placed := by rw [hplaced, List.append_nil]
  next := hnext
  rising := .nil
  range := fun _ hp => absurd hp List.not_mem_nil

theorem append (h : Places s new s₁) (h' : Places s₁ new' s₂) : Places s (new ++ new') s₂ where
  placed := by rw [h'.placed, h.placed, List.append_assoc]
  next := Nat.le_trans h.next h'.next
  rising := by
    refine List.pairwise_append.mpr ⟨h.rising, h'.rising, fun p hp q hq => ?_⟩
    exact Nat.lt_of_lt_of_le (h.range p hp).2 (h'.range q hq).1
  range := by
    intro p hp
    rcases List.mem_append.mp hp with hp | hp
    · exact ⟨(h.range p hp).1, Nat.lt_of_lt_of_le (h.range p hp).2 h'.next⟩
    · exact ⟨Nat.le_trans h.next (h'.range p hp).1, (h'.range p hp).2⟩

/-- One statement is numbered and placed. -/
theorem place (s : Scope) (span : Span) :
    Places s [(span, s.nextStmt)] ((BuildM.place span).run s).2 where
  placed := Array.toList_push
  next := Nat.le_succ _
  rising := List.pairwise_singleton _ _
  range := by
    intro p hp
    cases List.mem_singleton.mp hp
    exact ⟨Nat.le_refl _, Nat.lt_succ_self _⟩

end Places

/-- Statements are placed as they are built. -/
theorem places_follows : Follows False fun s docs ss s' => ∃ new, Places s new s' ∧
    List.Forall₂ (Stmt.Marks ss) (docs.flatMap Doc.Stmt.postorder) new where
  calm h _ := ⟨[], .nil h.placed (Nat.le_of_eq h.nextStmt.symm), .nil⟩
  append := by
    rintro _ _ _ docs docs' ss ss' ⟨new, hnew, hmarks⟩ ⟨new', hnew', hmarks'⟩
    refine ⟨new ++ new', hnew.append hnew', ?_⟩
    rw [List.flatMap_append]
    exact List.rel_append (hmarks.imp fun _ _ => .mono (List.subset_append_left _ _))
      (hmarks'.imp fun _ _ => .mono (List.subset_append_right _ _))
  number := by
    rintro _ _ _ _ t span ⟨new, hnew, hmarks⟩ - - -
    refine ⟨new, ?_, hmarks.imp fun _ _ => .mono (List.subset_cons_self _ _)⟩
    rw [← List.append_nil new]
    exact hnew.append (.nil rfl (Nat.le_succ _))
  place := by
    rintro s s₁ s₂ d ss t ⟨new, hnew, hmarks⟩ - hmade - hinfo
    have hmade₁ : Places s₁ [] s₂ := .nil hmade.placed (Nat.le_of_eq hmade.nextStmt.symm)
    refine ⟨new ++ [(d.span, s₂.nextStmt)], hnew.append (hmade₁.append (.place s₂ d.span)), ?_⟩
    rw [List.flatMap_singleton, Doc.Stmt.postorder_eq]
    refine List.rel_append (hmarks.imp fun _ _ => .mono (List.subset_cons_self _ _)) (.cons ?_ .nil)
    have hspan : t.span = d.span := congrArg StmtInfo.span hinfo
    have hid : t.id = s₂.nextStmt := congrArg StmtInfo.id hinfo
    exact ⟨t, List.mem_cons_self, hmade.tag, hspan, by rw [hspan, hid]⟩

end BuildM

/-- What is placed while a unit is built are the statements of its document, each
once and after its parts, under numbers that rise. -/
theorem Script.placed_build (u : Doc.Unit) (firstStmt : StmtId) :
    List.Forall₂ (Stmt.Marks (build u firstStmt).body.preorder) u.body.postorder
        (build u firstStmt).placed ∧
      (build u firstStmt).placed.Pairwise fun p q => p.2 < q.2 := by
  let s := Scope.start (.ofKind u.kind) firstStmt
  have hlocals := BuildM.locals_declare u s
  obtain ⟨new, hnew, hmarks⟩ := BuildM.unitBody_follows (s := s) BuildM.places_follows
    False.elim ⟨[], .nil hlocals.placed (Nat.le_of_eq hlocals.nextStmt.symm), .nil⟩
  rw [List.flatMap_singleton] at hmarks
  have hplaced : (build u firstStmt).placed = new := hnew.placed
  rw [hplaced]
  exact ⟨hmarks, hnew.rising⟩

end Vigil
