import Vigil.Proofs.Build.Yield
import Vigil.Proofs.Typing.Soundness

/-!
# Vigil.Proofs.Typing.Returns — the types of returned values

Construction checks that what is returned may be stored as the type of the
unit, and execution returns the value as it is. So a returned value has the
type of the expression returned, which is the type of the unit or, where that
is `int` or `double`, a narrower numeric type; widening it would give a value
of the unit's type (`Script.returned_before_widening`). A value that is stored
is widened, one that is returned is not.
-/

namespace Vigil

/-- A value that may be stored as one of another type is one only if nothing is
to be widened. -/
theorem Heap.HasType.iff_of_canAssign {h : Heap} {v : Value} {a b : Ty} (hv : h.HasType v a)
    (ha : a.clean = true) (hb : b.clean = true) (hassign : a.canAssign b = true) :
    h.HasType v b ↔ a = b ∨ b = .any := by
  -- two types other than `any` that a value has are one
  have hunique : a ≠ .any → b ≠ .any → h.HasType v b → a = b := by
    intro hane hbne hv'
    exact (hv.typeOf_eq hane).symm.trans (hv'.typeOf_eq hbne)
  constructor
  · intro hv'
    rcases Ty.canAssign_cases ha hb hassign with rfl | rfl | ⟨rfl, hnum⟩ | ⟨rfl, hint⟩
    · exact .inl rfl
    · exact .inr rfl
    · exact .inl (hunique (by rintro rfl; cases hnum) (by simp) hv')
    · exact .inl (hunique (by rintro rfl; cases hint) (by simp) hv')
  · rintro (rfl | rfl)
    · exact hv
    · exact hv.any

/-- In a world that conforms no value has a type that mentions `error`. -/
theorem Heap.HasType.clean {Γ : FrameRef → Layout} {w : World} {v : Value} {ty : Ty}
    (hv : w.heap.HasType v ty) (hw : w.Conforms Γ) : ty.clean = true := by
  rcases hv.typeOf with rfl | rfl
  · rfl
  · exact Stmt.typeOf_clean hw

namespace Script

variable {u : Doc.Unit} {firstStmt : StmtId} {s : Script} {ty : Ty} {Γ : FrameRef → Layout}
  {f : FrameRef} {fuel : Nat} {w w' : World} {v : Value}

/-- **Returned values.** A value that a plain unit returns is that of a
`return` in its body and has the type of the expression there, which may be
stored as the type of the unit. It has the type of the unit just when the two
types are one or anything may be returned, hence always when no number is
widened to that type; and widening it would give a value of that type. -/
theorem returned_before_widening (hload : load u firstStmt = .ok s) (hplain : u.plain = true)
    (hyield : s.yield = some ty) (hclean : ty.clean = true) (hf : (Γ f).idents = s.idents)
    (hw : w.Conforms Γ) (hrun : (s.run fuel f).runFrom w = (.ok ⟨some v, .return⟩, w')) :
    ∃ i e, Stmt.return i (some e) ∈ s.body.preorder ∧ e.ty.canAssign ty = true ∧
      w'.heap.HasType v e.ty ∧ (w'.heap.HasType v ty ↔ e.ty = ty ∨ ty = .any) ∧
      (ty ≠ .int → ty ≠ .double → w'.heap.HasType v ty) ∧
      w'.heap.HasType (v.coerce ty) ty := by
  -- the frame is laid out as the unit was built
  obtain ⟨L, hL, hbody, -⟩ := typed_of_load hload hplain
  rw [← Layout.eq_of_idents (hf.trans hL.symm)] at hbody
  obtain ⟨hev, hreturned⟩ := (Stmt.exec_safe s.body hw hbody).of_ok hrun
  obtain ⟨i, e, hmem, hv⟩ := hreturned v rfl
  have hassign := canAssign_of_return hload hyield hmem
  have he := hv.clean hev.conforms
  have hiff := hv.iff_of_canAssign he hclean hassign
  refine ⟨i, e, hmem, hassign, hv, hiff, fun hint hdouble => hiff.mpr ?_,
    hv.coerce he hclean hassign⟩
  rcases Ty.canAssign_cases he hclean hassign with h | h | ⟨h, -⟩ | ⟨h, -⟩
  · exact .inl h
  · exact .inr h
  · exact absurd h hdouble
  · exact absurd h hint

/-- A function without a declared type. Its first `return` settles on `double`;
the one it comes to gives a count, out of a loop. -/
def firstLarge : Doc.Unit where
  name := "first-large"
  kind := .function none
  locals := [⟨"n", .count, some (.count 3), .unknown⟩]
  body := .list
    [.cond (.binary .gt (.name "n") (.const (.count 5)))
        (.return (some (.const (.double (.ofInt 1))))) none,
      .while (.const (.bool true)) (.return (some (.name "n")))]

/-- It loads as a function that yields `double`, and in a fresh frame its run
returns a count, which widened would be a double. -/
theorem returned_before_widening_firstLarge : firstLarge.plain = true ∧ ∃ s,
    load firstLarge 0 = .ok s ∧ s.yield = some .double ∧ ∃ w w' : World,
      (s.run 9 ⟨0⟩).runFrom w = (.ok ⟨some (.count 3), .return⟩, w') ∧
      ∃ i e, Stmt.return i (some e) ∈ s.body.preorder ∧ e.ty = .count ∧
        ¬ w'.heap.HasType (.count 3) .double ∧
        w'.heap.HasType (Value.coerce (.count 3) .double) .double := by
  have hplain : firstLarge.plain = true := by decide +kernel
  have hload : load firstLarge 0 = .ok (build firstLarge 0) :=
    load_eq_ok_iff.mpr ⟨rfl, by decide +kernel⟩
  have hyield : (build firstLarge 0).yield = some .double := by decide +kernel
  obtain ⟨L, hL, -, -⟩ := typed_of_load hload hplain
  have hw := (World.evolves_addFrame 1 none
    (World.conforms_start (fun _ => L) default default)).conforms
  have hrun : (((build firstLarge 0).run 9 ⟨0⟩).runFrom
      ((World.start default default).addFrame 1 none).2).1 = .ok ⟨some (.count 3), .return⟩ := by
    decide +kernel
  obtain ⟨i, e, hmem, hassign, hv, hiff, -, hwide⟩ :=
    returned_before_widening hload hplain hyield rfl hL hw (Prod.ext hrun rfl)
  have he : e.ty = .count := by
    rcases hv.typeOf with hany | hcount
    · rw [hany] at hassign
      cases hassign
    · exact hcount.symm
  refine ⟨hplain, _, hload, hyield, _, _, Prod.ext hrun rfl, i, e, hmem, he, fun hv' => ?_, hwide⟩
  rw [he] at hiff
  rcases hiff.mp hv' with h | h <;> cases h

/-- A function declared to yield `double` that returns a count. -/
def plainTwo : Doc.Unit where
  name := "plain-two"
  kind := .function (some .double)
  locals := []
  body := .return (some (.const (.count 2)))

/-- It loads, a fresh frame conforms to its layout, and what it returns there is
a count and no double. -/
theorem returned_narrower : ∃ s, load plainTwo 0 = .ok s ∧ s.kind = .function (some .double) ∧
    s.yield = some .double ∧ plainTwo.plain = true ∧ ∃ (Γ : FrameRef → Layout) (w w' : World),
      (Γ ⟨0⟩).idents = s.idents ∧ w.Conforms Γ ∧
      (s.run 1 ⟨0⟩).runFrom w = (.ok ⟨some (.count 2), .return⟩, w') ∧
      w'.heap.typeOf (.count 2) = .count ∧ ¬ w'.heap.HasType (.count 2) .double := by
  have hplain : plainTwo.plain = true := by decide +kernel
  have hload : load plainTwo 0 = .ok (build plainTwo 0) :=
    load_eq_ok_iff.mpr ⟨rfl, by decide +kernel⟩
  obtain ⟨L, hL, -, -⟩ := typed_of_load hload hplain
  have hw := (World.evolves_addFrame 0 none
    (World.conforms_start (fun _ => L) default default)).conforms
  have hrun : (((build plainTwo 0).run 1 ⟨0⟩).runFrom
      ((World.start default default).addFrame 0 none).2).1 = .ok ⟨some (.count 2), .return⟩ := by
    decide +kernel
  refine ⟨_, hload, rfl, by decide +kernel, hplain, fun _ => L, _, _, hL, hw, Prod.ext hrun rfl,
    rfl, fun hv => ?_⟩
  cases hv.ofKind rfl

end Script

end Vigil
