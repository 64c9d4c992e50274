import Vigil.Proofs.Build.Passed
import Vigil.Proofs.Switch.Labels

/-!
# Vigil.Proofs.Switch.Scan — dispatch is a search through the labels

A switch finds its arm through a list of keys made when it was built. In a
unit that loads this is the same as trying the labels one after the other
(`Script.switches_scan_labels`): an arm with a label equal to the value is the
one selected, so no two arms have one, and types are tried in the order they
are written. Only under a selector of type `error` are value labels not
looked at, and there equal ones may stand side by side
(`Script.equal_labels_under_error`).
-/

namespace Vigil

/-! ## Finding -/

namespace Dispatch

variable {d : Dispatch} {ty : Ty} {v : Value} {key : Key}

theorem findValue_of_key (h : Heap) (hkey : Key.encode? true [ty] [v] = some key) :
    d.findValue h ty v = .ok (d.values.lookup key) := by
  unfold findValue
  split
  · rename_i hempty
    rw [List.isEmpty_iff.mp hempty]
    rfl
  · rw [hkey]
    rfl

theorem findValue_of_nil (h : Heap) (hnil : d.values = []) : d.findValue h ty v = .ok none := by
  unfold findValue
  rw [hnil]
  rfl

/-- Without type labels the value decides. -/
theorem find_of_types_nil {h : Heap} {arm : Option Nat} (htypes : d.types = [])
    (hfind : d.findValue h ty v = .ok arm) :
    d.find h ty v = .ok (arm <|> d.default?, none) := by
  unfold find
  rw [hfind, htypes]
  cases arm <;> rfl

/-- Without value labels the types do. -/
theorem find_of_values_nil {h : Heap} (hvalues : d.values = []) :
    d.find h ty v = .ok (match d.types.find? fun t => h.canView v t.ty with
      | some t => (some t.arm, t.binding?)
      | none => (d.default?, none)) := by
  unfold find
  rw [findValue_of_nil h hvalues]
  cases d.types.find? fun t => h.canView v t.ty <;> rfl

end Dispatch

/-! ## Scanning -/

namespace Switch

variable {written : List Case} {s : Switch} {c : Case} {v : Value}

/-- The arm of the first type label that the value can be viewed as, with the
variable it binds, or the default. -/
def scanTypes (s : Switch) (h : Heap) (v : Value) : Option Nat × Option Ident :=
  match (Dispatch.typeArms 0 s.arms).find? fun t => h.canView v t.ty with
  | some t => (some t.arm, t.binding?)
  | none => (s.arms.findIdx? Case.isDefault, none)

/-- The switch goes where trying its labels one after the other would go. -/
structure Scans (s : Switch) : Prop where
  /-- No two value labels are equal. -/
  distinct : s.selector.isError = false →
    (s.arms.flatMap fun c => c.labels.consts).Pairwise fun a b => ¬ a.Matches b
  /-- An arm with a label equal to the value is the one selected. -/
  selects : s.selector.isError = false → ∀ (h : Heap) (v : Value) (k : Nat) (c : Case),
    s.arms[k]? = some c → (∃ l ∈ c.labels.consts, l.Matches v) →
    s.dispatch.find h s.selector.ty v = .ok (some k, none)
  /-- A value of the selector's type that equals no label selects the default. -/
  otherwise : s.selector.isError = false → s.HasValues → ∀ (h : Heap) (v : Value),
    v.ofKind s.selector.ty = true → v.Short →
    (∀ c ∈ s.arms, ∀ l ∈ c.labels.consts, ¬ l.Matches v) →
    s.dispatch.find h s.selector.ty v = .ok (s.arms.findIdx? Case.isDefault, none)
  /-- Type labels are tried in order. -/
  byType : s.HasTypes → ∀ (h : Heap) (v : Value),
    s.dispatch.find h s.selector.ty v = .ok (s.scanTypes h v)

namespace Collected

variable {k : Nat}

/-- Every label has a key. -/
theorem exists_key (hs : s.Collected) (hsel : s.selector.isError = false) {l : Value}
    (hc : s.arms[k]? = some c) (hl : l ∈ c.labels.consts) :
    ∃ key, Key.encode? true [s.selector.ty] [l] = some key ∧ (key, k) ∈ s.dispatch.values := by
  have hmem : (Key.encode? true [s.selector.ty] [l], k) ∈
      s.dispatch.values.map fun l => (some l.1, l.2) := by
    rw [hs.values_of_ok hsel]
    exact List.mem_map.mpr ⟨(l, k), Dispatch.mem_valueArms.mpr ⟨c, hc, hl⟩, rfl⟩
  obtain ⟨⟨key, i⟩, hkey, heq⟩ := List.mem_map.mp hmem
  obtain ⟨hencode, rfl⟩ := Prod.mk.inj heq
  exact ⟨key, hencode.symm, hkey⟩

/-- No key is listed twice, so each leads to its arm. -/
theorem lookup_eq (hs : s.Collected) {key : Key} (h : (key, k) ∈ s.dispatch.values) :
    s.dispatch.values.lookup key = some k := by
  have hfind : ∀ vs : List (Key × Nat), (vs.map Prod.fst).Nodup → (key, k) ∈ vs →
      vs.lookup key = some k := by
    intro vs hnodup hmem
    induction vs with
    | nil => cases hmem
    | cons l vs ih =>
      obtain ⟨hnew, hrest⟩ := List.nodup_cons.mp hnodup
      rcases List.mem_cons.mp hmem with rfl | hmem
      · simp
      · have hne : key ≠ l.1 := fun e => hnew (e ▸ List.mem_map_of_mem hmem)
        rw [List.lookup_cons, beq_false_of_ne hne]
        exact ih hrest hmem
  exact hfind _ hs.nodup h

theorem types_nil (hs : s.Collected) (hvalues : s.HasValues) : s.dispatch.types = [] := by
  rw [hs.types]
  exact Dispatch.typeArms_eq_nil 0 fun c hc ts hts => hs.notMixed ⟨hvalues, c, hc, ts, hts⟩

theorem values_nil (hs : s.Collected) (htypes : s.HasTypes) : s.dispatch.values = [] := by
  have hnil : Dispatch.valueArms 0 s.arms = [] :=
    Dispatch.valueArms_eq_nil 0 fun c hc es hes => hs.notMixed ⟨⟨c, hc, es, hes⟩, htypes⟩
  have hvalues := hs.values
  rw [hnil, ite_self, List.map_nil] at hvalues
  exact List.map_eq_nil_iff.mp hvalues

theorem distinct (hs : s.Collected) (hsel : s.selector.isError = false) :
    (s.arms.flatMap fun c => c.labels.consts).Pairwise fun a b => ¬ a.Matches b := by
  -- the keys of the labels are the listed ones, which are distinct
  have hkeys : ((s.arms.flatMap fun c => c.labels.consts).map
      fun l => Key.encode? true [s.selector.ty] [l]) =
        (s.dispatch.values.map Prod.fst).map some := by
    have hfst := congrArg (List.map Prod.fst) (hs.values_of_ok hsel)
    rw [← Dispatch.map_fst_valueArms 0]
    simpa [Function.comp_def] using hfst.symm
  have hnodup : ((s.arms.flatMap fun c => c.labels.consts).map
      fun l => Key.encode? true [s.selector.ty] [l]).Nodup := by
    rw [hkeys]
    exact hs.nodup.map (Option.some_injective _)
  refine (List.pairwise_map.mp hnodup).imp_of_mem fun {a b} ha _ hne hmatch => ?_
  obtain ⟨c, hc, ha⟩ := List.mem_flatMap.mp ha
  obtain ⟨k, hk⟩ := List.mem_iff_getElem?.mp hc
  obtain ⟨key, hkey, -⟩ := hs.exists_key hsel hk ha
  exact hne (hkey.trans ((Key.encode?_eq_iff_matches hkey).mpr hmatch).symm)

theorem selects (hs : s.Collected) (hsel : s.selector.isError = false) (h : Heap)
    (hc : s.arms[k]? = some c) (hl : ∃ l ∈ c.labels.consts, l.Matches v) :
    s.dispatch.find h s.selector.ty v = .ok (some k, none) := by
  obtain ⟨l, hl, hmatch⟩ := hl
  have hvalues := hasValues_of_mem hc hl
  obtain ⟨key, hkey, hmem⟩ := hs.exists_key hsel hc hl
  have hfind := Dispatch.findValue_of_key (d := s.dispatch) h
    ((Key.encode?_eq_iff_matches hkey).mpr hmatch)
  rw [hs.lookup_eq hmem] at hfind
  exact Dispatch.find_of_types_nil (hs.types_nil hvalues) hfind

theorem otherwise (hs : s.Collected) (hsel : s.selector.isError = false) (hvalues : s.HasValues)
    (h : Heap) (hkind : v.ofKind s.selector.ty = true) (hshort : v.Short)
    (hnone : ∀ c ∈ s.arms, ∀ l ∈ c.labels.consts, ¬ l.Matches v) :
    s.dispatch.find h s.selector.ty v = .ok (s.arms.findIdx? Case.isDefault, none) := by
  have hfind : s.dispatch.findValue h s.selector.ty v = .ok none := by
    by_cases hlist : s.dispatch.values = []
    · exact Dispatch.findValue_of_nil h hlist
    · obtain ⟨key, hkey⟩ := Key.exists_encode_singleton.mpr ⟨hkind, hs.isAtomic hsel hlist, hshort⟩
      rw [Dispatch.findValue_of_key h hkey]
      refine congrArg Except.ok (List.lookup_eq_none_iff.mpr fun p hp => ?_)
      rw [bne_iff_ne]
      rintro rfl
      obtain ⟨c, hc, l, hl, hkey'⟩ := (hs.mem_values hsel).mp hp
      exact hnone c (List.mem_of_getElem? hc) l hl ((Key.encode?_eq_iff_matches hkey').mp hkey)
  rw [Dispatch.find_of_types_nil (hs.types_nil hvalues) hfind, hs.default]
  rfl

theorem byType (hs : s.Collected) (htypes : s.HasTypes) (h : Heap) (v : Value) :
    s.dispatch.find h s.selector.ty v = .ok (s.scanTypes h v) := by
  rw [Dispatch.find_of_values_nil (hs.values_nil htypes), hs.types, hs.default]
  rfl

theorem scans (hs : s.Collected) : s.Scans where
  distinct := hs.distinct
  selects hsel h _ _ _ hc hl := hs.selects hsel h hc hl
  otherwise hsel hvalues h _ hkind hshort hnone := hs.otherwise hsel hvalues h hkind hshort hnone
  byType := hs.byType

end Collected

end Switch

namespace Script

/-- The switches of a unit that loads are those of its document, in order. The
arms of each are the written ones with their labels folded to the constants
they evaluate to, and dispatch is a search through these labels. -/
theorem switches_scan_labels {u : Doc.Unit} {firstStmt : StmtId} {s : Script}
    (hload : load u firstStmt = .ok s) (hbreach : s.breach? = none) :
    List.Forall₂ (fun (doc : Doc.Switch) (sw : Switch) =>
        (∃ scope scope' : Scope, sw.selector = ((BuildM.expr doc.selector).run scope).1 ∧
          List.Forall₂ Case.FoldsTo ((BuildM.caseList doc.cases).run scope').1 sw.arms) ∧
        sw.Scans)
      (Doc.switches u.body) s.body.switches := by
  refine (switches_passed hload hbreach).imp fun doc sw hpassed => ?_
  obtain ⟨scope, scope', hselector, hmade⟩ := hpassed
  obtain ⟨hfolds, hcollected⟩ := hmade.collected
  exact ⟨⟨scope, scope', hselector, hfolds⟩, hcollected.scans⟩

/-- A unit with a switch over signed constants, one of them named, and a switch
over types. -/
def sorter : Doc.Unit where
  name := "sorter"
  kind := .toplevel
  locals := [⟨"n", .int, none, .unknown⟩, ⟨"x", .any, none, .unknown⟩,
    ⟨"one", .count, some (.count 1), .unknown⟩]
  body := .list [
    .switch (.name "n") [
      .mk none none .break,
      .mk (some [.unary .negate (.const (.count 2)),
        .unary .positive (.name "one")]) none .break],
    .switch (.name "x") [
      .mk none (some [⟨.count, some "c", .unknown⟩, ⟨.any, none, .unknown⟩]) .break]]

/-- The unit loads. The negated count selects the second arm, a number that is
no label the default before it, and a string the second type label. -/
theorem switches_scan_labels_sorter : ∃ (s : Script) (byValue byType : Switch),
    load sorter 0 = .ok s ∧ s.breach? = none ∧ s.body.switches = [byValue, byType] ∧
    byValue.Scans ∧ byType.Scans ∧
    byValue.arms.map (fun c => c.labels.consts) = [[], [.int (-2), .int 1]] ∧
    ∀ h : Heap, byValue.dispatch.find h .int (.int (-2)) = .ok (some 1, none) ∧
      byValue.dispatch.find h .int (.int 2) = .ok (some 0, none) ∧
      byType.dispatch.find h .any (.str [0x61]) = .ok (some 0, none) := by
  have hload : load sorter 0 = .ok (build sorter 0) :=
    load_eq_ok_iff.mpr ⟨rfl, by decide +kernel⟩
  have hbreach : (build sorter 0).breach? = none := by decide +kernel
  -- what is to be computed of the built switches is plain data
  have hconsts : (build sorter 0).body.switches.map
      (fun sw => sw.arms.map fun c => c.labels.consts) = [[[], [.int (-2), .int 1]], [[]]] := by
    decide +kernel
  have hselectors : (build sorter 0).body.switches.map (fun sw => sw.selector.ty) =
      [.int, .any] := by
    decide +kernel
  have hdefaults : (build sorter 0).body.switches.map
      (fun sw => sw.arms.findIdx? Case.isDefault) = [some 0, none] := by
    decide +kernel
  have htypes : (build sorter 0).body.switches.map (fun sw => Dispatch.typeArms 0 sw.arms) =
      [[], [⟨.count, some ⟨"c", 3, .count, none⟩, 0⟩, ⟨.any, none, 0⟩]] := by
    decide +kernel
  have hscans := switches_scan_labels hload hbreach
  obtain ⟨byValue, rest, hcons, hfirst, hrest⟩ := List.map_eq_cons_iff.mp hconsts
  obtain ⟨byType, rest', rfl, -, hnil⟩ := List.map_eq_cons_iff.mp hrest
  cases List.map_eq_nil_iff.mp hnil
  rw [hcons] at hselectors hdefaults htypes hscans
  simp only [List.map_cons, List.map_nil, List.cons.injEq, and_true] at hselectors hdefaults htypes
  obtain ⟨_, _, hvalue, hscans', _⟩ := List.forall₂_cons_right_iff.mp hscans
  obtain ⟨_, _, htype, _, _⟩ := List.forall₂_cons_right_iff.mp hscans'
  have hvalueScans : byValue.Scans := hvalue.2
  have htypeScans : byType.Scans := htype.2
  -- the arm with the labels is the second one
  obtain ⟨c, hc, hlabels⟩ : ∃ c, byValue.arms[1]? = some c ∧
      c.labels.consts = [.int (-2), .int 1] := by
    have hsecond : (byValue.arms.map fun c => c.labels.consts)[1]? =
        some [.int (-2), .int 1] := by rw [hfirst]; rfl
    rwa [List.getElem?_map, Option.map_eq_some_iff] at hsecond
  have hvalues : byValue.HasValues := Switch.hasValues_of_mem hc (hlabels ▸ List.mem_cons_self)
  have htyped : byType.HasTypes := by
    refine Switch.hasTypes_of_typeArms_ne_nil ?_
    rw [htypes.2]
    decide
  have hok : byValue.selector.isError = false := by
    rw [Expr.isError, hselectors.1]
    rfl
  have hnone : ∀ c ∈ byValue.arms, ∀ l ∈ c.labels.consts, ¬ l.Matches (.int 2) := by
    have hall : ∀ ls ∈ byValue.arms.map fun c => c.labels.consts,
        ∀ l ∈ ls, ¬ l.Matches (.int 2) := by
      rw [hfirst]
      decide
    exact List.forall_mem_map.mp hall
  refine ⟨_, byValue, byType, hload, hbreach, hcons, hvalueScans, htypeScans, hfirst,
    fun h => ⟨?_, ?_, ?_⟩⟩
  · rw [← hselectors.1]
    exact hvalueScans.selects hok h _ 1 c hc ⟨.int (-2), hlabels ▸ List.mem_cons_self, by decide⟩
  · rw [← hdefaults.1, ← hselectors.1]
    refine hvalueScans.otherwise hok hvalues h _ ?_ trivial hnone
    rw [hselectors.1]
    rfl
  · rw [← hselectors.2, htypeScans.byType htyped, Switch.scanTypes, htypes.2]
    rfl

/-- A switch over a variable of type `error`, with one label written twice. -/
def sameLabelTwice : Doc.Unit where
  name := "same-label-twice"
  kind := .toplevel
  locals := [⟨"x", .error, none, .unknown⟩]
  body := .switch (.name "x") [
    .mk (some [.const (.count 1)]) none .break,
    .mk (some [.const (.count 1)]) none .break]

/-- The unit loads without a problem, and two labels of its switch are equal. -/
theorem equal_labels_under_error : ∃ s : Script,
    load sameLabelTwice 0 = .ok s ∧ s.diagnostics = [] ∧ s.breach? = none ∧
    s.body.switches.map (fun sw => sw.arms.flatMap fun c => c.labels.consts) =
      [[.count 1, .count 1]] ∧ Value.equal (.count 1) (.count 1) = true :=
  ⟨build sameLabelTwice 0, load_eq_ok_iff.mpr ⟨rfl, by decide +kernel⟩, by decide +kernel,
    by decide +kernel, by decide +kernel, by decide⟩

end Script

end Vigil
