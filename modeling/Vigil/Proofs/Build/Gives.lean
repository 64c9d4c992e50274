import Vigil.Proofs.Stmt.Tree
import Vigil.Proofs.Typing.Syntax
import Vigil.Script

/-!
# Vigil.Proofs.Build.Gives — what a construction gives

Construction only adds names and problems: nothing is taken back, the first
broken invariant is kept, and a name that is declared gets a slot of its own
(`Scope.Grows`). Expressions, labels, loop variables and declarations number and
place no statement, break no invariant and leave the rule for `return` alone
(`Scope.Declares`), so how statements are numbered, what may be returned, and
whether the unit is still fine, is decided by the statements alone. Only the
declarations of a unit bring in constants; all else declares variables
(`Scope.Quiet`).

What is checked where something is built holds in the scope of that moment, and
so in every later scope, the last one included. `BuildM.Gives` says this of one
construction, together with what the construction does to the scope. A check that
fails reports an error, so after it anything may be assumed of a scope without
errors. Such a scope is sane: its names make a layout.
-/

namespace Vigil

namespace Scope

variable {s s' : Scope}

/-- The identifiers declared so far. -/
def idents (s : Scope) : List Ident := s.names.map Prod.snd

/-- Nothing that was found blocks loading. -/
def NoErrors (s : Scope) : Prop := ∀ d ∈ s.diagnostics, d.isError = false

/-- Nothing found so far keeps the unit from loading. -/
structure Fine (s : Scope) : Prop where
  noErrors : s.NoErrors
  breach : s.breach? = none

/-- Each name stands for an identifier of that name, and no slot for two of
them. -/
structure Named (s : Scope) : Prop where
  name : ∀ e ∈ s.names, e.2.name = e.1
  slot : ∀ e ∈ s.names, e.2.slot < s.nextSlot
  apart : ∀ e ∈ s.names, ∀ e' ∈ s.names, e.2.slot = e'.2.slot → e.2 = e'.2

/-! ## Later scopes -/

/-- Nothing was taken back, and the names are in order if they were. -/
structure Grows (s s' : Scope) : Prop where
  names : s.names ⊆ s'.names
  problems : ∀ d ∈ s.diagnostics, d ∈ s'.diagnostics
  named : s.Named → s'.Named
  breach : s'.breach? = none → s.breach? = none

namespace Grows

theorem refl (s : Scope) : s.Grows s := ⟨List.Subset.refl _, fun _ h => h, id, id⟩

theorem trans {s₁ s₂ s₃ : Scope} (h : s₁.Grows s₂) (h' : s₂.Grows s₃) : s₁.Grows s₃ where
  names := List.Subset.trans h.names h'.names
  problems d hd := h'.problems d (h.problems d hd)
  named hs := h'.named (h.named hs)
  breach hs := h.breach (h'.breach hs)

theorem idents (h : s.Grows s') : s.idents ⊆ s'.idents := List.map_subset _ h.names

theorem noErrors (h : s.Grows s') (hs : s'.NoErrors) : s.NoErrors :=
  fun d hd => hs d (h.problems d hd)

theorem fine (h : s.Grows s') (hs : s'.Fine) : s.Fine :=
  ⟨h.noErrors hs.noErrors, h.breach hs.breach⟩

/-- Problems are all that was added. -/
theorem of_eq (hnames : s'.names = s.names) (hslot : s'.nextSlot = s.nextSlot)
    (hproblems : ∀ d ∈ s.diagnostics, d ∈ s'.diagnostics)
    (hbreach : s'.breach? = none → s.breach? = none) : s.Grows s' := by
  refine ⟨hnames ▸ List.Subset.refl _, hproblems, fun hs => ?_, hbreach⟩
  constructor <;> rw [hnames]
  · exact hs.name
  · rw [hslot]
    exact hs.slot
  · exact hs.apart

/-- A new name gets a slot no other has. -/
theorem declareAs (name : String) (ty : Ty) (const? : Option Value) (s : Scope) :
    s.Grows ((BuildM.declareAs name ty const?).run s).2 := by
  refine ⟨List.subset_cons_self _ _, fun _ hd => hd, fun hs => ⟨?_, ?_, ?_⟩, id⟩
  · rintro e (_ | ⟨_, he⟩)
    · rfl
    · exact hs.name e he
  · rintro e (_ | ⟨_, he⟩)
    · exact Nat.lt_succ_self _
    · exact Nat.lt_succ_of_lt (hs.slot e he)
  · rintro e (_ | ⟨_, he⟩) e' (_ | ⟨_, he'⟩) heq
    · rfl
    · exact absurd (heq ▸ hs.slot e' he') (Nat.lt_irrefl _)
    · exact absurd (heq ▸ hs.slot e he) (Nat.lt_irrefl _)
    · exact hs.apart e he e' he' heq

end Grows

/-- No statement was numbered or placed, nothing returned, no invariant broken, and
nothing taken back. -/
structure Declares (s s' : Scope) : Prop where
  nextStmt : s'.nextStmt = s.nextStmt
  yieldRule : s'.yieldRule = s.yieldRule
  placed : s'.placed = s.placed
  breach : s'.breach? = s.breach?
  grows : s.Grows s'

/-- What was declared, if anything, are variables. -/
structure Quiet (s s' : Scope) : Prop extends s.Declares s' where
  vars : ∀ e ∈ s'.names, e ∈ s.names ∨ e.2.const? = none

theorem Quiet.refl (s : Scope) : s.Quiet s :=
  ⟨⟨rfl, rfl, rfl, rfl, .refl s⟩, fun _ he => .inl he⟩

/-- A relation that allows for what goes on inside a statement. -/
class Steady (R : Scope → Scope → Prop) : Prop where
  of_quiet : ∀ {s s'}, s.Quiet s' → R s s'
  trans : ∀ {s₁ s₂ s₃}, R s₁ s₂ → R s₂ s₃ → R s₁ s₃
  grows : ∀ {s s'}, R s s' → s.Grows s'

instance : Steady Declares where
  of_quiet h := h.toDeclares
  trans h h' := ⟨h'.nextStmt.trans h.nextStmt, h'.yieldRule.trans h.yieldRule,
    h'.placed.trans h.placed, h'.breach.trans h.breach, h.grows.trans h'.grows⟩
  grows h := h.grows

instance : Steady Quiet where
  of_quiet h := h
  trans h h' := by
    refine ⟨Steady.trans h.toDeclares h'.toDeclares, fun e he => ?_⟩
    rcases h'.vars e he with hold | hvar
    · exact h.vars e hold
    · exact .inr hvar
  grows h := h.grows

/-! ## Layouts -/

/-- The layout has all names of the scope. -/
def Within (s : Scope) (L : Layout) : Prop := s.idents ⊆ L.idents

/-- So it is under every layout, in a scope without errors. -/
def Grants (s : Scope) (T : Layout → Prop) : Prop := s.NoErrors → ∀ L, s.Within L → T L

/-- The names make a layout, and no invariant was found broken. -/
structure Sane (s : Scope) : Prop extends s.Named where
  clean : ∀ id ∈ s.idents, id.ty.clean = true
  const : ∀ id ∈ s.idents, ∀ v, id.const? = some v → Heap.empty.HasType v id.ty
  breach : s.breach? = none

/-- The layout of a sane scope. -/
def Sane.layout {s : Scope} (h : s.Sane) : Layout where
  idents := s.idents
  clean := h.clean
  const := h.const
  apart := by
    intro id hid id' hid'
    obtain ⟨e, he, rfl⟩ := List.mem_map.mp hid
    obtain ⟨e', he', rfl⟩ := List.mem_map.mp hid'
    exact h.apart e he e' he'

/-- A scope stays sane, unless an error is found. -/
def Keeps (s s' : Scope) : Prop := s.Sane → s'.NoErrors → s'.Sane

/-- Names and broken invariants are all that sanity looks at. -/
theorem Keeps.of_eq (h : s.Grows s') (hnames : s'.names = s.names)
    (hbreach : s'.breach? = s.breach?) : s.Keeps s' := by
  intro hs _
  have hidents : s'.idents = s.idents := congrArg (List.map Prod.snd) hnames
  exact ⟨h.named hs.toNamed, hidents ▸ hs.clean, hidents ▸ hs.const, hbreach.trans hs.breach⟩

theorem Keeps.trans {s₁ s₂ s₃ : Scope} (h : s₁.Keeps s₂) (h' : s₂.Keeps s₃) (hgrows : s₂.Grows s₃) :
    s₁.Keeps s₃ :=
  fun hs hne => h' (h hs (hgrows.noErrors hne)) hne

/-- At some point of a construction without errors it is so. -/
def Sometime (K : Scope → Prop) : Prop := ∃ s : Scope, s.Sane ∧ s.NoErrors ∧ K s

theorem Sometime.imp {K K' : Scope → Prop} (h : ∀ s, K s → K' s) : Sometime K → Sometime K' :=
  fun ⟨s, hs, hne, hK⟩ => ⟨s, hs, hne, h s hK⟩

/-- What is granted then is so under a layout. -/
theorem Sometime.grants {T : Layout → Prop} (h : Sometime (Grants · T)) : ∃ L, T L :=
  let ⟨_, hs, hne, hT⟩ := h
  ⟨hs.layout, hT hne _ (List.Subset.refl _)⟩

end Scope

namespace BuildM

open Scope (Grows Declares Quiet Steady Sometime)

variable {α β : Type} {R : Scope → Scope → Prop} {G : Prop} {x : BuildM α} {P Q : Scope → α → Prop}
  {span : Span} {name : String} {ty : Ty} {p : Problem}

/-- What `x` does to the scope, whose sanity it keeps under `G`, and what it builds:
that has the property in the scope it leaves and in every later one. -/
structure Gives (R : Scope → Scope → Prop) (G : Prop) (x : BuildM α) (P : Scope → α → Prop) :
    Prop where
  step : ∀ s : Scope, R s (x.run s).2
  keeps : G → ∀ s : Scope, s.Keeps (x.run s).2
  holds : ∀ s s' : Scope, (x.run s).2.Grows s' → P s' (x.run s).1

namespace Gives

theorem mono (h : Gives R G x P) (hPQ : ∀ s a, P s a → Q s a) : Gives R G x Q :=
  ⟨h.step, h.keeps, fun s s' hs => hPQ s' _ (h.holds s s' hs)⟩

theorem guard {G' : Prop} (h : Gives R G x P) (hG : G' → G) : Gives R G' x P :=
  ⟨h.step, fun hG' => h.keeps (hG hG'), h.holds⟩

variable [Steady R]

theorem pure {a : α} (h : ∀ s, P s a) : Gives R G (Pure.pure a) P :=
  ⟨fun s => Steady.of_quiet (.refl s), fun _ _ hs _ => hs, fun _ s' _ => h s'⟩

/-- Two parts in sequence. What the first built keeps its property while the
second is built, which may rely on it. -/
theorem relied {k : α → BuildM β} {T : Scope → β → Prop} (hx : Gives R G x P)
    (hk : ∀ a, Gives R (G ∧ Sometime (P · a)) (k a) fun s b => P s a → T s b) :
    Gives R G (x >>= k) T := by
  have hrun : ∀ s : Scope, (x >>= k).run s = (k (x.run s).1).run (x.run s).2 := fun _ => rfl
  refine ⟨fun s => Steady.trans (hx.step s) ((hk _).step _), fun hG s hs hne => ?_,
    fun s s' hs => ?_⟩
  · rw [hrun] at hne ⊢
    have hne₁ := (Steady.grows ((hk (x.run s).1).step (x.run s).2)).noErrors hne
    have hsane := hx.keeps hG s hs hne₁
    exact (hk _).keeps ⟨hG, _, hsane, hne₁, hx.holds s _ (.refl _)⟩ _ hsane hne
  · rw [hrun] at hs ⊢
    have hsecond := Steady.grows ((hk (x.run s).1).step (x.run s).2)
    exact (hk _).holds _ s' hs (hx.holds s s' (hsecond.trans hs))

theorem bind {k : α → BuildM β} {T : Scope → β → Prop} (hx : Gives R G x P)
    (hk : ∀ a, Gives R G (k a) fun s b => P s a → T s b) : Gives R G (x >>= k) T :=
  hx.relied fun a => (hk a).guard And.left

/-- A part that says nothing about what follows. -/
theorem andThen {k : α → BuildM β} {T : Scope → β → Prop} (hx : Gives R G x P)
    (hk : ∀ a, Gives R G (k a) T) : Gives R G (x >>= k) T :=
  hx.bind fun a => (hk a).mono fun _ _ h _ => h

/-- A part that need not be there. -/
theorem mapM {f : α → BuildM β} {o : Option α} {T : α → Scope → β → Prop}
    (h : ∀ a ∈ o, Gives R G (f a) (T a)) :
    Gives R G (o.mapM f) fun s r => ∀ b ∈ r, ∃ a ∈ o, T a s b := by
  cases o with
  | none => exact .pure fun _ b hb => by cases hb
  | some a =>
    refine .bind (h a rfl) fun b => .pure fun s hb c hc => ?_
    cases hc
    exact ⟨a, rfl, hb⟩

end Gives

variable [Steady R]

/-! ## Reporting -/

theorem reportAll_gives (ds : List Diagnostic) :
    Gives R G (reportAll ds) fun s _ => s.NoErrors → ∀ d ∈ ds, d.isError = false := by
  have hgrows : ∀ s : Scope, s.Grows ((reportAll ds).run s).2 := fun s =>
    .of_eq rfl rfl (fun _ hd => Array.mem_append_left _ hd) id
  refine ⟨fun s => Steady.of_quiet ⟨⟨rfl, rfl, rfl, rfl, hgrows s⟩, fun _ he => .inl he⟩,
    fun _ s => .of_eq (hgrows s) rfl rfl, fun s s' hs hne d hd => ?_⟩
  exact hs.noErrors hne d (Array.mem_append_right _ (by simpa using hd))

theorem report_gives : Gives R G (report span p) fun s _ => p.isError = true → ¬ s.NoErrors :=
  (reportAll_gives _).mono fun _ _ h hp hne =>
    absurd (hp.symm.trans (h hne _ (List.mem_singleton_self _))) (by decide)

/-- After an error anything may be assumed of a scope without errors. -/
theorem Gives.failed {k : BuildM α} (hp : p.isError = true) (hk : Gives R False k P) :
    Gives R G (do report span p; k) fun s a => ¬ s.NoErrors ∧ P s a :=
  .relied report_gives fun _ => (hk.guard fun ⟨_, _, _, hne, h⟩ => h hp hne).mono
    fun _ _ hP h => ⟨h hp, hP⟩

theorem reportIf_gives {bad : Bool} :
    Gives R G (reportIf bad span p) fun s _ => p.isError = true → s.NoErrors → bad = false := by
  cases bad with
  | false => exact .pure fun _ _ _ => rfl
  | true => exact report_gives.mono fun _ _ h hp hne => absurd hne (h hp)

/-! ## Names -/

theorem find?_gives :
    Gives R G (find? name) fun s found => ∀ id ∈ found, (name, id) ∈ s.names := by
  refine ⟨fun s => Steady.of_quiet (.refl s), fun _ _ hs _ => hs,
    fun s s' hs id hid => hs.names ?_⟩
  obtain ⟨before, after, hnames, -⟩ := List.lookup_eq_some_iff.mp hid
  change (name, id) ∈ s.names
  rw [hnames]
  exact List.mem_append_right _ List.mem_cons_self

theorem declareAs_keeps {const? : Option Value} (hclean : ty.clean = true)
    (hconst : ∀ v, const? = some v → Heap.empty.HasType v ty) (s : Scope) :
    s.Keeps ((declareAs name ty const?).run s).2 := by
  refine fun hs _ => ⟨(Grows.declareAs name ty const? s).named hs.toNamed, ?_, ?_, hs.breach⟩
  · rintro id (_ | ⟨_, hid⟩)
    · exact hclean
    · exact hs.clean id hid
  · rintro id (_ | ⟨_, hid⟩)
    · exact hconst
    · exact hs.const id hid

theorem declareAs_declares (name : String) (ty : Ty) (const? : Option Value) (s : Scope) :
    s.Declares ((declareAs name ty const?).run s).2 :=
  ⟨rfl, rfl, rfl, rfl, .declareAs name ty const? s⟩

theorem declare_gives :
    Gives R (ty.clean = true) (declare name ty) fun s id => id ∈ s.idents ∧ id.ty = ty := by
  refine ⟨fun s => Steady.of_quiet ⟨declareAs_declares name ty none s, ?_⟩,
    fun hclean => declareAs_keeps hclean (fun _ hv => by cases hv),
    fun _ _ hs => ⟨hs.idents List.mem_cons_self, rfl⟩⟩
  rintro e (_ | ⟨_, he⟩)
  · exact .inr rfl
  · exact .inl he

/-! ## Steps of statements -/

theorem number_grows (span : Span) (s : Scope) : s.Grows ((number span).run s).2 :=
  .of_eq rfl rfl (fun _ hd => hd) id

theorem place_grows (span : Span) (s : Scope) : s.Grows ((place span).run s).2 :=
  .of_eq rfl rfl (fun _ hd => hd) id

theorem returnRule_grows (span : Span) (value : Option Expr) (s : Scope) :
    s.Grows ((returnRule span value).run s).2 :=
  .of_eq rfl rfl (fun _ hd => Array.mem_append_left _ hd) id

/-- The first broken invariant is kept. -/
theorem breach_orElse_eq_none {a b : Option Breach} (h : (a <|> b) = none) :
    a = none ∧ b = none := by
  cases a with
  | none => exact ⟨rfl, h⟩
  | some _ => cases h

theorem dispatch_grows (selector : Expr) (written : List Case) (s : Scope) :
    s.Grows ((dispatch selector written).run s).2 := by
  refine .of_eq rfl rfl (fun _ hd => Array.mem_append_left _ hd) fun hbreach => ?_
  exact (breach_orElse_eq_none hbreach).1

end BuildM

/-- A unit that loads reported nothing but warnings. -/
theorem Script.noErrors_of_load {u : Doc.Unit} {firstStmt : StmtId} {s : Script}
    (hload : load u firstStmt = .ok s) :
    ((BuildM.unitBody u).run (.start (.ofKind u.kind) firstStmt)).2.NoErrors := by
  obtain ⟨rfl, hok⟩ := load_eq_ok_iff.mp hload
  intro d hd
  have hmem : d ∈ (build u firstStmt).diagnostics := Array.mem_toList_iff.mpr hd
  exact Bool.eq_false_iff.mpr (List.any_eq_false.mp hok d hmem)

end Vigil
