import Vigil.Proofs.Build.Passed

/-!
# Vigil.Proofs.Build.Unbroken — no document breaks an invariant

A value label is looked up by its key, and one that passed the checks of its switch
and has no key all the same would break an invariant. That never happens, whatever
is wrong with the unit: constants in scope have the type of their value and fit a key
(`Scope.FitKeys`), so a constant expression that is not an error has a value of its own
type that fits one (`Expr.Foldable`). A string fits a key when it is shorter than four
gigabytes, which is asked for in labels and declared constants only.
-/

namespace Vigil

/-! ## Labels of a document -/

namespace Doc

def Switch.plainLabels (s : Switch) : Bool := s.cases.all Case.plainLabels

/-- The strings in labels and declared constants are short. -/
def Unit.plainLabels (u : Unit) : Bool :=
  (u.locals.all fun d => d.const?.all Lit.plain) && (switches u.body).all Switch.plainLabels

end Doc

/-! ## Construction -/

/-- The switch was built from that of the document, and the labels that passed its
checks are found by their keys. -/
def Switch.KeyedFrom (doc : Doc.Switch) (s : Switch) : Prop :=
  ∃ scope scope' : Scope, s.selector = ((BuildM.expr doc.selector).run scope).1 ∧
    ∃ written, written = ((BuildM.caseList doc.cases).run scope').1 ∧
      s.arms = (Dispatch.ofCases s.selector written).1 ∧
      s.dispatch = .ofDraft (Dispatch.ofCases s.selector written).2 ∧
      ∀ c ∈ written, c.labels.KeyedUnder s.selector (s.dispatch.values.map Prod.fst)

/-- The switches among the statements are those of the document, with their labels found. -/
abbrev AllKeyed (docs : List Doc.Switch) (ss : List Stmt) : Prop := AllFrom Switch.KeyedFrom docs ss

namespace BuildM

/-- In a scope whose constants fit keys, switches with plain labels break no invariant, and
their labels are found. -/
theorem keyed_follows : Follows False fun s docs ss s' =>
    (s.FitKeys → s'.FitKeys) ∧
      ((docs.flatMap Doc.switches).all Doc.Switch.plainLabels = true → s.FitKeys →
        s'.breach? = s.breach? ∧ AllKeyed (docs.flatMap Doc.switches) ss) where
  calm h _ := ⟨fun hs => hs.vars h.vars, fun _ _ => ⟨h.breach, .nil⟩⟩
  append h h' := by
    refine ⟨fun hs => h'.1 (h.1 hs), fun hplain hs => ?_⟩
    rw [List.flatMap_append, List.all_append, Bool.and_eq_true] at hplain
    rw [List.flatMap_append]
    obtain ⟨hbreach, hfirst⟩ := h.2 hplain.1 hs
    obtain ⟨hbreach', hsecond⟩ := h'.2 hplain.2 (h.1 hs)
    exact ⟨hbreach'.trans hbreach, hfirst.append hsecond⟩
  number h hplain _ _ := ⟨h.1, fun hlabels hs => (h.2 hlabels hs).imp_right (·.skip hplain.switch?)⟩
  place {s s₁ _ _ _ _} h _ hmade _ _ := by
    refine ⟨fun hs e he => h.1 hs e (hmade.names ▸ he), fun hplain hs => ?_⟩
    rw [List.flatMap_singleton, Doc.switches_eq] at hplain ⊢
    cases hmade with
    | plain _ hd ht =>
      rw [hd] at hplain ⊢
      exact (h.2 hplain hs).imp_right (·.skip ht.switch?)
    | «return» => exact (h.2 hplain hs).imp_right (·.skip rfl)
    | @switch e _ _ _ selector written hselector hwritten hknown =>
      simp only [Doc.Stmt.switch?, Option.toList_some, List.singleton_append, List.all_cons,
        Bool.and_eq_true] at hplain
      obtain ⟨hbreach, hparts⟩ := h.2 hplain.2 hs
      obtain ⟨hnone, hkeyed⟩ := Dispatch.ofCases_keyed selector
        (hknown.foldable hplain.1 (h.1 hs))
      refine ⟨?_, List.Forall₂.cons
        ⟨_, _, hselector, written, hwritten, rfl, rfl, hkeyed⟩ hparts⟩
      change (s₁.breach? <|> (Dispatch.ofCases selector written).2.breach?) = _
      rw [hnone, ← hbreach]
      cases s₁.breach? <;> rfl

end BuildM

/-- Whatever is wrong with a unit, building it breaks no invariant, and every value label
that passed the checks of its switch is found by its key under the selector's type. -/
theorem Script.build_unbroken (u : Doc.Unit) (firstStmt : StmtId) (hplain : u.plainLabels = true) :
    (build u firstStmt).breach? = none ∧
      List.Forall₂ Switch.KeyedFrom (Doc.switches u.body) (build u firstStmt).body.switches := by
  obtain ⟨hlocals, hlabels⟩ := Bool.and_eq_true_iff.mp hplain
  let s := Scope.start (.ofKind u.kind) firstStmt
  have hfits := (BuildM.localDecls_gives (F := True) u.locals fun _ => hlocals).step s
  have hconsts := hfits.consts trivial fun _ he => absurd he List.not_mem_nil
  have hkeyed := (BuildM.unitBody_follows BuildM.keyed_follows False.elim
    (BuildM.keyed_follows.calm (.refl ((BuildM.localDecls u.locals).run s).2) False.elim)).2
  rw [List.flatMap_singleton] at hkeyed
  obtain ⟨hbreach, hswitches⟩ := hkeyed hlabels hconsts
  exact ⟨hbreach.trans hfits.breach, hswitches⟩

/-- A switch on a number whose arms are labelled by a signed constant and an unknown name, by a
string, and by the number itself. -/
def Doc.Unit.strayLabels : Doc.Unit :=
  let arm (labels : List Doc.Expr) : Doc.Case := .mk (some labels) none .break
  { name := "stray"
    kind := .toplevel
    locals := [⟨"x", .int, none, .unknown⟩, ⟨"k", .count, some (.count 3), .unknown⟩]
    body := .switch (.name "x")
      [arm [.unary .negate (.name "k"), .name "nowhere"],
        arm [.const (.str "three")], arm [.name "x"]] }

theorem Script.build_unbroken_strayLabels :
    Doc.Unit.strayLabels.plainLabels = true ∧
      (build Doc.Unit.strayLabels 0).hasErrors = true ∧
      (build Doc.Unit.strayLabels 0).breach? = none ∧
      (build Doc.Unit.strayLabels 0).body.switches.map (·.dispatch.values.length) = [1] := by
  have hplain : Doc.Unit.strayLabels.plainLabels = true := by decide +kernel
  exact ⟨hplain, by decide +kernel, (build_unbroken Doc.Unit.strayLabels 0 hplain).1,
    by decide +kernel⟩

end Vigil
