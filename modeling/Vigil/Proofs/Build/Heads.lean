import Vigil.Proofs.Build.Order

/-!
# Vigil.Proofs.Build.Heads — identifiers, heads of loops, and ends of arms

What is known of a statement where it is built is known in the finished unit
(`BuildM.unitBody_vouched`). So every identifier in a unit has a slot of its frames,
and two which share a slot are one (`Script.slot_lt`, `Script.ident_eq_of_slot`),
whether or not the unit loads. In a unit that loads a loop has as many variables as
its target asks for, and every arm ends in a jump (`Script.arms_end`).
-/

namespace Vigil

namespace BuildM

/-- All statements are vouched for, and under `G` the scope is still sane. -/
theorem vouched_follows {G : Prop} : Follows G fun s _ ss s' =>
    s.Grows s' ∧ (G → s.Keeps s') ∧ ∀ t ∈ ss, ∀ s'', s'.Grows s'' → t.Vouched G s'' where
  calm h hkeeps := ⟨h.grows, hkeeps, List.forall_mem_nil _⟩
  append h h' := ⟨h.1.trans h'.1, fun hG => (h.2.1 hG).trans (h'.2.1 hG) h'.1,
    List.forall_mem_append.mpr ⟨fun t ht s'' hs => h.2.2 t ht s'' (h'.1.trans hs), h'.2.2⟩⟩
  number {_ s₁ _ _ _ span} h _ hback _ := by
    have hgrows := number_grows span s₁
    exact ⟨h.1.trans hgrows, fun hG => (h.2.1 hG).trans (.of_eq hgrows rfl rfl) hgrows,
      List.forall_mem_cons.mpr ⟨fun s'' hs => hback.vouched s'' (hgrows.trans hs),
        fun t ht s'' hs => h.2.2 t ht s'' (hgrows.trans hs)⟩⟩
  place {_ _ s₂ d _ _} h _ hmade hback _ := by
    have hplace := place_grows d.span s₂
    have hgrows := hmade.grows.trans hplace
    exact ⟨h.1.trans hgrows, fun hG => (h.2.1 hG).trans
      ((hback.keeps hG).trans (.of_eq hplace rfl rfl) hplace) hgrows,
      List.forall_mem_cons.mpr ⟨fun s'' hs => hback.vouched s'' (hplace.trans hs),
        fun t ht s'' hs => h.2.2 t ht s'' (hgrows.trans hs)⟩⟩

/-- The statements of a unit are vouched for in its last scope, which is sane if the
unit is plain and without errors. -/
theorem unitBody_vouched (u : Doc.Unit) (firstStmt : StmtId) :
    (Scope.start (.ofKind u.kind) firstStmt).Grows
        ((unitBody u).run (.start (.ofKind u.kind) firstStmt)).2 ∧
      (u.plain = true → (Scope.start (.ofKind u.kind) firstStmt).Keeps
        ((unitBody u).run (.start (.ofKind u.kind) firstStmt)).2) ∧
      ∀ t ∈ (Script.build u firstStmt).body.preorder, t.Vouched (u.plain = true)
        ((unitBody u).run (.start (.ofKind u.kind) firstStmt)).2 := by
  have hplain : u.plain = true →
      u.locals.all Doc.LocalDecl.plain = true ∧ u.body.plain = true := Bool.and_eq_true_iff.mp
  obtain ⟨hgrows, hkeeps, hvouched⟩ := unitBody_follows
    (s := .start (.ofKind u.kind) firstStmt) vouched_follows (fun h => (hplain h).2)
    ⟨(locals_declare u _).grows, fun h =>
      (localDecls_gives u.locals False.elim).keeps (hplain h).1 _, List.forall_mem_nil _⟩
  exact ⟨hgrows, hkeeps, fun t ht => hvouched t ht _ (.refl _)⟩

end BuildM

theorem Scope.sane_start (rule : YieldRule) (firstStmt : StmtId) : (start rule firstStmt).Sane where
  name _ h := absurd h List.not_mem_nil
  slot _ h := absurd h List.not_mem_nil
  apart _ h := absurd h List.not_mem_nil
  clean _ h := absurd h List.not_mem_nil
  const _ h := absurd h List.not_mem_nil
  breach := rfl

namespace Script

variable {u : Doc.Unit} {firstStmt : StmtId} {s : Script} {i : StmtInfo} {vars : List Ident}
  {valueVar : Option Ident} {target selector : Expr} {body : Stmt} {id : Ident}

/-- An identifier of the body is one of the declared names. -/
theorem mem_names_of_mem_allIdents (hid : id ∈ (build u firstStmt).body.allIdents) :
    ∃ e ∈ (build u firstStmt).names, e.2 = id := by
  obtain ⟨t, ht, hid⟩ := List.mem_flatMap.mp hid
  exact List.mem_map.mp (((BuildM.unitBody_vouched u firstStmt).2.2 t ht).idents hid)

/-- The names are in order at the end of every unit. -/
theorem named_of_build (u : Doc.Unit) (firstStmt : StmtId) :
    ((BuildM.unitBody u).run (.start (.ofKind u.kind) firstStmt)).2.Named :=
  (BuildM.unitBody_vouched u firstStmt).1.named (Scope.sane_start _ _).toNamed

/-- Every identifier of the body has a slot of the frame. -/
theorem slot_lt (hid : id ∈ (build u firstStmt).body.allIdents) :
    id.slot < (build u firstStmt).frameSize := by
  obtain ⟨e, he, rfl⟩ := mem_names_of_mem_allIdents hid
  exact (named_of_build u firstStmt).slot e he

/-- Two identifiers of the body that share a slot are one. -/
theorem ident_eq_of_slot {id' : Ident} (hid : id ∈ (build u firstStmt).body.allIdents)
    (hid' : id' ∈ (build u firstStmt).body.allIdents) (hslot : id.slot = id'.slot) : id = id' := by
  obtain ⟨e, he, rfl⟩ := mem_names_of_mem_allIdents hid
  obtain ⟨e', he', rfl⟩ := mem_names_of_mem_allIdents hid'
  exact (named_of_build u firstStmt).apart e he e' he' hslot

/-- Two variables in the head of a loop that share a slot are one. -/
theorem eq_of_slot
    (hloop : Stmt.for i vars valueVar target body ∈ (build u firstStmt).body.preorder) {id' : Ident}
    (hid : id ∈ vars ++ valueVar.toList) (hid' : id' ∈ vars ++ valueVar.toList)
    (hslot : id.slot = id'.slot) : id = id' := by
  have hall : ∀ id ∈ vars ++ valueVar.toList, id ∈ (build u firstStmt).body.allIdents := by
    intro id hid
    refine List.mem_flatMap.mpr ⟨_, hloop, List.mem_append_left _ (List.mem_append_right _ ?_)⟩
    rw [Stmt.introduced_for]
    exact hid
  exact ident_eq_of_slot (hall id hid) (hall id' hid') hslot

/-- The loops of a unit that loads have as many variables as their targets ask
for. -/
theorem asksFor_of_load (hload : load u firstStmt = .ok s)
    (hloop : Stmt.for i vars valueVar target body ∈ s.body.preorder) : target.ty.AsksFor vars := by
  have hne := noErrors_of_load hload
  obtain ⟨rfl, -⟩ := load_eq_ok_iff.mp hload
  exact ((BuildM.unitBody_vouched u firstStmt).2.2 _ hloop).checked hne

/-- The arms of the switches of a unit that loads end in jumps. -/
theorem arms_end (hload : load u firstStmt = .ok s) {cases : List Case} {dispatch : Dispatch}
    (hswitch : Stmt.switch i selector cases dispatch ∈ s.body.preorder) :
    ∀ c ∈ cases, c.body.lastTag.endsCase = true := by
  have hne := noErrors_of_load hload
  obtain ⟨rfl, -⟩ := load_eq_ok_iff.mp hload
  exact ((BuildM.unitBody_vouched u firstStmt).2.2 _ hswitch).checked hne

end Script

end Vigil
