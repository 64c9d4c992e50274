import Mathlib.Data.List.Nodup
import Vigil.Proofs.Build.Order

/-!
# Vigil.Proofs.Build.Numbers — no two statements share a number

A statement takes the next number when it is complete, so the numbers in a
unit are all different and lie between the first number of the unit and the
first it leaves (`Script.numbers_build`). Of units numbered one after the other
a number therefore tells the statement, and with it the statement's form
(`Script.tag_eq_formIn`).
-/

namespace Vigil

namespace BuildM

variable {s s' : Scope}

/-- Different numbers, all taken since `lo`. -/
structure Taken (lo : StmtId) (ids : List StmtId) (s : Scope) : Prop where
  start : lo ≤ s.nextStmt
  nodup : ids.Nodup
  range : ∀ i ∈ ids, lo ≤ i ∧ i < s.nextStmt

/-- Numbers of a statement and of all below it. -/
def stmtIds (s : Stmt) : List StmtId := s.preorder.map Stmt.id

theorem Taken.append {lo : StmtId} {ids ids' : List StmtId} (h : Taken lo ids s)
    (h' : Taken s.nextStmt ids' s') : Taken lo (ids ++ ids') s' := by
  refine ⟨Nat.le_trans h.start h'.start, ?_, fun i hi => ?_⟩
  · -- later numbers are above all earlier ones
    refine List.nodup_append.mpr ⟨h.nodup, h'.nodup, ?_⟩
    rintro i hi _ hj rfl
    exact Nat.not_lt.mpr (h'.range i hj).1 (h.range i hi).2
  · rcases List.mem_append.mp hi with hi | hi
    · exact ⟨(h.range i hi).1, Nat.lt_of_lt_of_le (h.range i hi).2 h'.start⟩
    · exact ⟨Nat.le_trans h.start (h'.range i hi).1, (h'.range i hi).2⟩

/-- The next number is a new one. -/
theorem Taken.next {lo i : StmtId} {ids : List StmtId} (h : Taken lo ids s) (hi : i = s.nextStmt)
    (hs : s'.nextStmt = s.nextStmt + 1) : Taken lo (i :: ids) s' := by
  subst hi
  refine ⟨?_, List.nodup_cons.mpr ⟨fun hi => ?_, h.nodup⟩, fun i hi => ?_⟩
  · rw [hs]
    exact Nat.le_succ_of_le h.start
  · exact Nat.lt_irrefl _ (h.range _ hi).2
  · rw [hs]
    rcases List.mem_cons.mp hi with rfl | hi
    · exact ⟨h.start, Nat.lt_succ_self _⟩
    · exact ⟨(h.range i hi).1, Nat.lt_succ_of_lt (h.range i hi).2⟩

theorem Taken.nil (h : s'.nextStmt = s.nextStmt) : Taken s.nextStmt [] s' :=
  ⟨Nat.le_of_eq h.symm, .nil, fun _ hi => by cases hi⟩

/-- Statements take numbers as they are built. -/
theorem taken_follows : Follows False fun s _ ss s' => Taken s.nextStmt (ss.map Stmt.id) s' where
  calm h _ := .nil h.nextStmt
  append h h' := by
    rw [List.map_append]
    exact h.append h'
  number h _ _ hinfo := h.next (congrArg StmtInfo.id hinfo) rfl
  place h _ hmade _ hinfo := h.next ((congrArg StmtInfo.id hinfo).trans hmade.nextStmt)
    (congrArg (· + 1) hmade.nextStmt)

end BuildM

namespace Script

variable {units : List (Doc.Unit × StmtId)}

/-- The numbers of a unit's statements differ, and lie between its first and
the first that it leaves to others. -/
theorem numbers_build (u : Doc.Unit) (firstStmt : StmtId) :
    BuildM.Taken firstStmt (BuildM.stmtIds (build u firstStmt).body)
      ((BuildM.unitBody u).run (.start (.ofKind u.kind) firstStmt)).2 :=
  BuildM.unitBody_follows (s := .start (.ofKind u.kind) firstStmt) BuildM.taken_follows
    False.elim (.nil (BuildM.locals_declare u _).nextStmt)

/-- Units numbered one after the other, each with its first number. -/
def Apart (units : List (Doc.Unit × StmtId)) : Prop :=
  units.Pairwise fun a b => (build a.1 a.2).nextStmt ≤ b.2

instance : DecidablePred Apart := fun units =>
  inferInstanceAs (Decidable (units.Pairwise fun a b => (build a.1 a.2).nextStmt ≤ b.2))

/-- All statements of the units. -/
def stmtsOf (units : List (Doc.Unit × StmtId)) : List Stmt :=
  units.flatMap fun a => (build a.1 a.2).body.preorder

/-- The form of the statement that has the number. -/
def formIn (units : List (Doc.Unit × StmtId)) (id : StmtId) : StmtTag :=
  (((stmtsOf units).find? fun s => s.id = id).map Stmt.tag).getD .null

theorem nodup_stmtsOf (h : Apart units) : ((stmtsOf units).map Stmt.id).Nodup := by
  unfold stmtsOf
  rw [List.map_flatMap]
  refine List.nodup_flatMap.mpr ⟨fun a _ => (numbers_build a.1 a.2).nodup, h.imp ?_⟩
  intro a b hab i hi hi'
  -- a number of the earlier unit is below all of the later one
  have hlt : i < (build a.1 a.2).nextStmt := ((numbers_build a.1 a.2).range i hi).2
  have hle : b.2 ≤ i := ((numbers_build b.1 b.2).range i hi').1
  exact Nat.not_lt.mpr (Nat.le_trans hab hle) hlt

/-- Numbers tell the forms of all statements of the units. -/
theorem tag_eq_formIn (h : Apart units) {s : Stmt} (hs : s ∈ stmtsOf units) :
    formIn units s.id = s.tag := by
  have hfind : ∀ ss : List Stmt, (ss.map Stmt.id).Nodup → s ∈ ss →
      (ss.find? fun t => t.id = s.id) = some s := by
    intro ss hnodup hmem
    induction ss with
    | nil => cases hmem
    | cons t ss ih =>
      obtain ⟨hnew, hrest⟩ := List.nodup_cons.mp hnodup
      rcases List.mem_cons.mp hmem with rfl | hmem
      · simp
      · have hne : t.id ≠ s.id := fun e => hnew (e ▸ List.mem_map_of_mem hmem)
        rw [List.find?_cons_of_neg (by simpa using hne)]
        exact ih hrest hmem
  unfold formIn
  rw [hfind _ (nodup_stmtsOf h) hs]
  rfl

end Script

end Vigil
