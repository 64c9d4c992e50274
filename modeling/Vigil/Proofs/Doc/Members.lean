import Vigil.Doc.Decode
import Vigil.Doc.Encode

/-!
# Vigil.Proofs.Doc.Members — reading the members of an object

Readers see an object through `Json.named`: what stands under a name, in
document order. The readers of members are equations over it, and so are the
writers, so that a reader of a written object computes.

Two properties of readers are carried through members, options and lists. A
value is read back from the tree it is written as (`Json.ReadsBack`), and
whatever is read from a proper tree has a property (`Json.Ensures`). A tree is
proper when its numbers are those a document can hold.
-/

namespace Vigil.Json

variable {j : Json} {forms : Forms} {inside : Bool} {tag : String} {d : Nat} {items : List Json}

variable {α : Type} {read : Json → Option α} {write : α → Json} {P : α → Prop}
  {name : String} {members : List (String × Json)}

/-! ## Members by name -/

/-- What stands under a name. -/
def named (name : String) (members : List (String × Json)) : List Json :=
  (members.filter (·.1 == name)).map Prod.snd

@[simp] theorem named_nil (name : String) : named name [] = [] := by simp [named]

@[simp] theorem named_cons (name other : String) (j : Json) (members : List (String × Json)) :
    named name ((other, j) :: members) =
      if other = name then j :: named name members else named name members := by
  by_cases h : other = name <;> simp [named, h]

@[simp] theorem named_append (name : String) (members more : List (String × Json)) :
    named name (members ++ more) = named name members ++ named name more := by
  simp [named]

@[simp] theorem named_optional (name other : String) (o : Option Json) :
    named name (optional other o) = if other = name then o.toList else [] := by
  cases o <;> simp [optional]

theorem mem_of_mem_named (h : j ∈ named name members) : ∃ m ∈ members, m.2 = j := by
  obtain ⟨m, hm, rfl⟩ := List.mem_map.mp h
  exact ⟨m, (List.mem_filter.mp hm).1, rfl⟩

@[simp] theorem mem_optional {other : String} {o : Option Json} :
    (other, j) ∈ optional name o ↔ other = name ∧ j ∈ o := by
  cases o <;> simp [optional, eq_comm]

/-! ## Readers of members -/

/-- The only one of a list, if there is one; no answer when there are more. -/
def sole : List Json → Option (Option Json)
  | [] => some none
  | [j] => some (some j)
  | _ => none

@[simp] theorem sole_nil : sole [] = some none := rfl

@[simp] theorem sole_singleton (j : Json) : sole [j] = some (some j) := rfl

@[simp] theorem sole_toList (o : Option Json) : sole o.toList = some o := by cases o <;> rfl

theorem mem_of_sole {js : List Json} (h : sole js = some (some j)) : j ∈ js := by
  rcases js with _ | ⟨k, _ | ⟨_, _⟩⟩
  · cases h
  · cases h
    exact List.mem_singleton_self _
  · cases h

theorem only?_eq : only? name members = sole (named name members) := by
  unfold only? named
  generalize members.filter (·.1 == name) = found
  rcases found with _ | ⟨_, _ | _⟩ <;> rfl

/-- An option, for which `null` stands when absent. -/
def readOption (read : Json → Option α) : Option Json → Option (Option α)
  | none | some .null => some none
  | some j => (read j).map some

@[simp] theorem readOption_none : readOption read none = some none := rfl

theorem readOption_some (h : j ≠ .null) : readOption read (some j) = (read j).map some := by
  cases j <;> first | rfl | exact absurd rfl h

@[simp] theorem required?_eq : required? members name read =
    (sole (named name members)).bind fun o => o.bind read := by
  simp only [required?, only?_eq]
  rfl

@[simp] theorem optional?_eq :
    optional? members name read = (sole (named name members)).bind (readOption read) := by
  simp only [optional?, only?_eq]
  rcases sole (named name members) with _ | (_ | j)
  · rfl
  · rfl
  · cases j <;> rfl

@[simp] theorem withDefault?_eq {fallback : α} :
    withDefault? members name fallback read =
      (sole (named name members)).bind fun o => o.elim (some fallback) read := by
  simp only [withDefault?, only?_eq]
  rcases sole (named name members) with _ | (_ | j) <;> rfl

@[simp] theorem record?_obj (names : List String) (least : Nat) :
    record? names least (.obj members) = some members := rfl

@[simp] theorem form?_tagged (h : named "t" members = []) :
    form? forms inside (tagged tag members) = some (tag, ("t", .str tag) :: members) := by
  simp [form?, tagged, h, tag?]

theorem form?_tagged_bind {k : String × List (String × Json) → Option α}
    (h : named "t" members = []) :
    (form? forms inside (tagged tag members) >>= k) = k (tag, ("t", .str tag) :: members) := by
  rw [form?_tagged h]
  rfl

/-! ## Depth -/

@[simp] theorem depth_tagged (tag : String) (members : List (String × Json)) :
    (tagged tag members).depth = depthMembers members + 1 := by
  simp [tagged, depth, depthMembers]

@[simp] theorem depth_obj (members : List (String × Json)) :
    (obj members).depth = depthMembers members + 1 := by
  simp [depth]

theorem depthItems_le_iff (items : List Json) :
    depthItems items ≤ d ↔ ∀ j ∈ items, j.depth ≤ d := by
  induction items with
  | nil => simp [depthItems]
  | cons j rest ih => rw [depthItems, Nat.max_le, ih, List.forall_mem_cons]

theorem depthMembers_le_iff (members : List (String × Json)) :
    depthMembers members ≤ d ↔ ∀ m ∈ members, m.2.depth ≤ d := by
  induction members with
  | nil => simp [depthMembers]
  | cons m rest ih => rw [depthMembers, Nat.max_le, ih, List.forall_mem_cons]

/-- The parts of an object are a level below it. -/
theorem depth_le_of_obj (h : (obj members).depth ≤ d + 1) (name : String)
    (hj : (name, j) ∈ members) : j.depth ≤ d := by
  rw [depth_obj, Nat.add_le_add_iff_right, depthMembers_le_iff] at h
  exact h _ hj

theorem depth_le_of_tagged (h : (tagged tag members).depth ≤ d + 1) (name : String)
    (hj : (name, j) ∈ members) : j.depth ≤ d :=
  depth_le_of_obj h name (List.mem_cons_of_mem _ hj)

/-- The items of an array are no deeper than it. -/
theorem depth_le_of_arr (h : (arr items).depth ≤ d) : ∀ j ∈ items, j.depth ≤ d := by
  have h : depthItems items + 1 ≤ d := by simpa [depth] using h
  exact (depthItems_le_iff items).mp (by omega)

/-! ## Values read back -/

/-- A value is read back from its tree, which is not that of an absent one. -/
structure ReadsBack (read : Json → Option α) (write : α → Json) (a : α) : Prop where
  read_write : read (write a) = some a
  ne_null : write a ≠ .null

theorem readOption_map {o : Option α} (h : ∀ a ∈ o, ReadsBack read write a) :
    readOption read (o.map write) = some o := by
  cases o with
  | none => rfl
  | some a =>
    obtain ⟨hread, hne⟩ := h a rfl
    rw [Option.map_some, readOption_some hne, hread, Option.map_some]

theorem listOf?_map {as : List α} (h : ∀ a ∈ as, ReadsBack read write a) :
    listOf? read (.arr (as.map write)) = some as := by
  simp only [listOf?, items?, Option.bind_eq_bind, Option.bind_some]
  induction as with
  | nil => rfl
  | cons a as ih =>
    obtain ⟨ha, has⟩ := List.forall_mem_cons.mp h
    simp [ha.read_write, ih has]

/-- Items that read back unless they are deeper than their array. -/
theorem listOf?_of_depth {as : List α} (h : (arr (as.map write)).depth ≤ d)
    (back : ∀ a ∈ as, (write a).depth ≤ d → ReadsBack read write a) :
    listOf? read (.arr (as.map write)) = some as :=
  listOf?_map fun a ha => back a ha (depth_le_of_arr h _ (List.mem_map_of_mem ha))

theorem str?_readsBack (s : String) : ReadsBack str? .str s := ⟨rfl, by simp⟩

/-! ## Proper trees -/

mutual

/-- The numbers of the tree are words and finite doubles, as in a document. -/
def IsProper : Json → Prop
  | .int i => Word.IsSigned i ∨ Word.IsUnsigned i
  | .float d => d.isFinite
  | .arr items => ProperItems items
  | .obj members => ProperMembers members
  | .null | .bool _ | .str _ => True

def ProperItems : List Json → Prop
  | [] => True
  | j :: rest => IsProper j ∧ ProperItems rest

def ProperMembers : List (String × Json) → Prop
  | [] => True
  | (_, j) :: rest => IsProper j ∧ ProperMembers rest

end

theorem properItems_iff (items : List Json) :
    ProperItems items ↔ ∀ j ∈ items, j.IsProper := by
  induction items with
  | nil => simp [ProperItems]
  | cons j rest ih => rw [ProperItems, ih, List.forall_mem_cons]

theorem properMembers_iff (members : List (String × Json)) :
    ProperMembers members ↔ ∀ m ∈ members, m.2.IsProper := by
  induction members with
  | nil => simp [ProperMembers]
  | cons m rest ih => rw [ProperMembers, ih, List.forall_mem_cons]

theorem IsProper.of_record? {names : List String} {least : Nat} (hj : j.IsProper)
    (h : j.record? names least = some members) : ∀ m ∈ members, m.2.IsProper := by
  cases j with
  | obj found =>
    cases h
    exact (properMembers_iff _).mp (by simpa only [IsProper] using hj)
  | arr items =>
    rw [record?] at h
    split at h <;> cases h
    exact fun m hm => (properItems_iff _).mp (by simpa only [IsProper] using hj) _
      (List.of_mem_zip hm).2
  | _ => cases h

theorem IsProper.of_form? (hj : j.IsProper) (h : j.form? forms inside = some (tag, members)) :
    ∀ m ∈ members, m.2.IsProper := by
  unfold form? at h
  split at h
  · obtain ⟨_, -, h⟩ := Option.bind_eq_some_iff.mp h
    cases h
    exact hj.of_record? (record?_obj [] 0)
  · obtain ⟨_, -, h⟩ := Option.bind_eq_some_iff.mp h
    obtain ⟨⟨names, least⟩, -, h⟩ := Option.bind_eq_some_iff.mp h
    obtain ⟨found, hfound, h⟩ := Option.bind_eq_some_iff.mp h
    cases h
    rw [IsProper, ProperItems] at hj
    exact IsProper.of_record? (by simpa only [IsProper] using hj.2) hfound
  · cases h

theorem isProper_of_sole (hm : ∀ m ∈ members, m.2.IsProper)
    (h : sole (named name members) = some (some j)) : j.IsProper := by
  obtain ⟨m, hmem, rfl⟩ := mem_of_mem_named (mem_of_sole h)
  exact hm m hmem

/-! ## Properties of what is read -/

/-- Whatever is read from a proper tree has a property. -/
def Ensures (P : α → Prop) (read : Json → Option α) : Prop :=
  ∀ ⦃j a⦄, j.IsProper → read j = some a → P a

namespace Ensures

theorem required (h : Ensures P read) (hm : ∀ m ∈ members, m.2.IsProper) {a : α}
    (ha : required? members name read = some a) : P a := by
  rw [required?_eq] at ha
  obtain ⟨o, ho, ha⟩ := Option.bind_eq_some_iff.mp ha
  obtain ⟨j, rfl, ha⟩ := Option.bind_eq_some_iff.mp ha
  exact h (isProper_of_sole hm ho) ha

theorem optional (h : Ensures P read) (hm : ∀ m ∈ members, m.2.IsProper) {o : Option α}
    (ho : optional? members name read = some o) : ∀ a ∈ o, P a := by
  rw [optional?_eq] at ho
  obtain ⟨found, hfound, ho⟩ := Option.bind_eq_some_iff.mp ho
  intro a ha
  obtain rfl := ha
  rcases found with _ | j
  · cases ho
  · by_cases hnull : j = .null
    · cases hnull
      cases ho
    · rw [readOption_some hnull, Option.map_eq_some_iff] at ho
      obtain ⟨b, hb, hab⟩ := ho
      cases hab
      exact h (isProper_of_sole hm hfound) hb

theorem withDefault (h : Ensures P read) {fallback : α} (hfallback : P fallback)
    (hm : ∀ m ∈ members, m.2.IsProper) {a : α}
    (ha : withDefault? members name fallback read = some a) : P a := by
  rw [withDefault?_eq] at ha
  obtain ⟨o, ho, ha⟩ := Option.bind_eq_some_iff.mp ha
  rcases o with _ | j
  · cases ha
    exact hfallback
  · exact h (isProper_of_sole hm ho) ha

theorem mapM (h : Ensures P read) (hitems : ∀ j ∈ items, j.IsProper) {as : List α}
    (has : items.mapM read = some as) : ∀ a ∈ as, P a := by
  induction items generalizing as with
  | nil =>
    cases has
    simp
  | cons j items ih =>
    simp only [List.mapM_cons, Option.bind_eq_bind, Option.bind_eq_some_iff] at has
    obtain ⟨a, ha, rest, hrest, has⟩ := has
    cases has
    obtain ⟨hj, hitems⟩ := List.forall_mem_cons.mp hitems
    exact List.forall_mem_cons.mpr ⟨h hj ha, ih hitems hrest⟩

theorem listOf (h : Ensures P read) : Ensures (fun as => ∀ a ∈ as, P a) (listOf? read) := by
  intro j as hj hread
  obtain ⟨items, hitems, has⟩ := Option.bind_eq_some_iff.mp hread
  cases j <;> cases hitems
  exact h.mapM ((properItems_iff _).mp (by simpa only [IsProper] using hj)) has

end Ensures

end Vigil.Json
