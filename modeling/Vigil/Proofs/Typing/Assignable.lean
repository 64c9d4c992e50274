import Vigil.Proofs.Typing.Value

/-!
# Vigil.Proofs.Typing.Assignable — storing values under wider types

Between clean types `canAssign` is reflexive and transitive. A value whose own
type is assignable to a clean type takes on exactly that type when it is stored
(`Heap.assignable_sound`), unless its own type mentions `error`: no conversion
reaches into a collection (`Heap.vector_of_error_kept`).
-/

namespace Vigil

namespace Ty

theorem canAssign_any (a : Ty) : a.canAssign .any = true := by simp [canAssign]

theorem canAssign_double {a : Ty} (h : a.isNumeric = true) : a.canAssign .double = true := by
  simp [canAssign, h]

theorem canAssign_int {a : Ty} (h : a.isIntegral = true) : a.canAssign .int = true := by
  simp [canAssign, h]

theorem isNumeric_of_isIntegral {a : Ty} (h : a.isIntegral = true) : a.isNumeric = true := by
  cases a <;> first | rfl | cases h

/-- What is assignable to a number is a number no wider than it. -/
theorem canAssign_trans {a b c : Ty} (ha : a.clean = true) (hb : b.clean = true)
    (hc : c.clean = true) (hab : a.canAssign b = true) (hbc : b.canAssign c = true) :
    a.canAssign c = true := by
  rcases canAssign_cases hb hc hbc with rfl | rfl | ⟨rfl, hnum⟩ | ⟨rfl, hint⟩
  · exact hab
  · exact canAssign_any a
  · apply canAssign_double
    rcases canAssign_cases ha hb hab with rfl | rfl | ⟨-, hnum'⟩ | ⟨-, hint'⟩
    · exact hnum
    · cases hnum
    · exact hnum'
    · exact isNumeric_of_isIntegral hint'
  · apply canAssign_int
    rcases canAssign_cases ha hb hab with rfl | rfl | ⟨rfl, -⟩ | ⟨-, hint'⟩
    · exact hint
    · cases hint
    · cases hint
    · exact hint'

end Ty

namespace Heap

variable {h : Heap} {v : Value} {b : Ty}

/-- A table has the type of a table or a set. -/
theorem typeOf_table (r : TableRef) :
    (∃ i y, h.typeOf (.table r) = .table i y) ∨ ∃ i, h.typeOf (.table r) = .set i := by
  simp only [typeOf, Table.ty]
  split
  · exact .inl ⟨_, _, rfl⟩
  · exact .inr ⟨_, rfl⟩

theorem coerce_typeOf : v.coerce (h.typeOf v) = v := by
  cases v with
  | table r => rcases h.typeOf_table r with ⟨i, y, e⟩ | ⟨i, e⟩ <;> rw [e] <;> rfl
  | _ => rfl

/-- Only numbers are converted, and to numbers. -/
theorem clean_typeOf_coerce : (h.typeOf (v.coerce b)).clean = (h.typeOf v).clean := by
  unfold Value.coerce
  split <;> rfl

theorem typeOf_coerce_double (hnum : (h.typeOf v).isNumeric = true) :
    h.typeOf (v.coerce .double) = .double := by
  cases v with
  | table r => rcases h.typeOf_table r with ⟨i, y, e⟩ | ⟨i, e⟩ <;> rw [e] at hnum <;> cases hnum
  | _ => first | rfl | cases hnum

theorem typeOf_coerce_int (hint : (h.typeOf v).isIntegral = true) :
    h.typeOf (v.coerce .int) = .int := by
  cases v with
  | table r => rcases h.typeOf_table r with ⟨i, y, e⟩ | ⟨i, e⟩ <;> rw [e] at hint <;> cases hint
  | _ => first | rfl | cases hint

theorem typeOf_coerce (hv : (h.typeOf v).clean = true) (hb : b.clean = true) (hany : b ≠ .any)
    (hassign : (h.typeOf v).canAssign b = true) : h.typeOf (v.coerce b) = b := by
  rcases Ty.canAssign_cases hv hb hassign with rfl | rfl | ⟨rfl, hnum⟩ | ⟨rfl, hint⟩
  · rw [coerce_typeOf]
  · exact absurd rfl hany
  · exact typeOf_coerce_double hnum
  · exact typeOf_coerce_int hint

/-- Clean types agree only when they are equal, and between them assignability
is reflexive and transitive. A value whose dynamic type is assignable to a clean
type has that very type once stored, exactly when its own type is clean; where
`any` is declared it is stored as it is. -/
theorem assignable_sound (h : Heap) {a b c : Ty} (ha : a.clean = true) (hb : b.clean = true)
    (hc : c.clean = true) :
    (a.same b = true ↔ a = b) ∧ a.canAssign a = true ∧
    (a.canAssign b = true → b.canAssign c = true → a.canAssign c = true) ∧
    ∀ v : Value, (h.typeOf v).canAssign b = true →
      (b ≠ .any → (h.typeOf (v.coerce b) = b ↔ (h.typeOf v).clean = true)) ∧
      (b = .any → v.coerce b = v) := by
  refine ⟨Ty.same_iff_eq ha hb, Ty.canAssign_self a, Ty.canAssign_trans ha hb hc, ?_⟩
  intro v hassign
  refine ⟨fun hany => ⟨fun e => ?_, fun hv => typeOf_coerce hv hb hany hassign⟩, ?_⟩
  · rw [← clean_typeOf_coerce (b := b), e, hb]
  · rintro rfl
    rfl

/-- A count stored as a double, and counts below ints below doubles. -/
theorem assignable_sound_count :
    Ty.canAssign .count .double = true ∧ empty.typeOf (.count 7) = .count ∧
    empty.typeOf ((Value.count 7).coerce .double) = .double := by
  have hsound := assignable_sound empty (a := .count) (b := .int) (c := .double) rfl rfl rfl
  have hstored := (assignable_sound empty (a := .int) (b := .double) (c := .any) rfl rfl rfl).2.2.2
    (.count 7) rfl
  exact ⟨hsound.2.2.1 rfl rfl, rfl, (hstored.1 (by decide)).mpr rfl⟩

/-- A fresh `vector of error` is assignable to `vector of count` and stays what
it is when stored there. -/
theorem vector_of_error_kept :
    ∃ v h, empty.fresh? (.vector .error) = some (v, h) ∧
      (Ty.vector .count).clean = true ∧ (h.typeOf v).canAssign (.vector .count) = true ∧
      h.typeOf (v.coerce (.vector .count)) ≠ .vector .count :=
  ⟨_, _, rfl, by decide, by decide, by decide⟩

end Heap

end Vigil
