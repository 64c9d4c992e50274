import Vigil.Proofs.Build.Heads

/-!
# Vigil.Proofs.Build.Unit — loaded units are typed

The declared names of a unit make a layout, and a statement is typed under it when
each that stands in it is (`Stmt.typed_of_own`). So a plain unit that loads has a
layout of exactly its declared names, a body that is typed under it, and no broken
invariant (`Script.typed_of_load`).
-/

namespace Vigil

namespace Stmt

variable {L : Layout}

theorem typedList_iff {ss : List Stmt} : TypedList L ss ↔ ∀ s ∈ ss, s.Typed L := by
  induction ss with
  | nil => simp [TypedList]
  | cons s ss ih => rw [TypedList, ih, List.forall_mem_cons]

theorem typedCases_iff {cs : List Case} : TypedCases L cs ↔ ∀ c ∈ cs, c.body.Typed L := by
  induction cs with
  | nil => simp [TypedCases]
  | cons c cs ih =>
    obtain ⟨labels, body, span⟩ := c
    rw [TypedCases, ih, List.forall_mem_cons]
    rfl

/-- A statement is typed when each of those that stand in it is. -/
theorem typed_of_own {t : Stmt} (h : ∀ u ∈ t.preorder, u.OwnTyped L) : t.Typed L := by
  induction t using tree_induction with
  | h t ih =>
    have hown := h t t.self_mem_preorder
    have hbelow : ∀ c ∈ t.children, c.Typed L := fun c hc => ih c hc fun u hu =>
      h u (forest_children_subset t (preorder_subset_forest hc hu))
    cases t with
    | list | bodyList => exact typedList_iff.mpr hbelow
    | cond =>
      exact ⟨hown, hbelow _ List.mem_cons_self, hbelow _ (.tail _ List.mem_cons_self)⟩
    | «while» => exact ⟨hown, hbelow _ List.mem_cons_self⟩
    | «for» => exact ⟨hown.1, hown.2, hbelow _ List.mem_cons_self⟩
    | switch =>
      exact ⟨hown.1, hown.2, typedCases_iff.mpr fun c hc => hbelow _ (List.mem_map_of_mem hc)⟩
    | «return» i value =>
      cases value with
      | none => trivial
      | some e => exact hown e rfl
    | «when» i test body timeout timeoutBody isReturn =>
      refine ⟨hown.1, hbelow _ List.mem_cons_self, hown.2, ?_⟩
      cases timeoutBody with
      | none => trivial
      | some b => exact hbelow b (List.mem_cons_of_mem _ List.mem_cons_self)
    | next | «break» | fallthrough | null => trivial
    | _ => exact hown

end Stmt

namespace Script

/-- The identifiers a script declares. -/
def idents (s : Script) : List Ident := s.names.map (·.2)

/-- A plain unit that loads is typed under the layout of its names. -/
theorem typed_of_load {u : Doc.Unit} {firstStmt : StmtId} {s : Script}
    (hload : load u firstStmt = .ok s) (hplain : u.plain = true) :
    ∃ L : Layout, L.idents = s.idents ∧ s.body.Typed L ∧ s.breach? = none := by
  have hnoErrors := noErrors_of_load hload
  obtain ⟨rfl, -⟩ := load_eq_ok_iff.mp hload
  -- the final scope is sane, and its names are the layout
  obtain ⟨-, hkeeps, hvouched⟩ := BuildM.unitBody_vouched u firstStmt
  have hsane := hkeeps hplain (Scope.sane_start _ _) hnoErrors
  exact ⟨hsane.layout, rfl, Stmt.typed_of_own fun t ht =>
    (hvouched t ht).typed hplain hnoErrors _ (List.Subset.refl _), hsane.breach⟩

end Script

end Vigil
