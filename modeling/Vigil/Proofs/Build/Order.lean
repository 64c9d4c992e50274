import Vigil.Lint
import Vigil.Proofs.Build.Quiet

/-!
# Vigil.Proofs.Build.Order — statements are built one after the other

Construction builds the parts of a statement in the order they are written,
makes the checks of the statement itself (`BuildM.Made`) and numbers it. What is
known of it then stays (`Stmt.Vouched`): the identifiers that stand in it are
declared ones, a loop has as many variables as its target asks for, each arm of a
switch ends in a jump, and if nothing is wrong the statement is typed.

A relation between the scope before, the statements of the document, those that
were built from them, in preorder, and the scope after holds of every
construction when it allows for these steps and composes (`BuildM.Follows`). How
statements are numbered and placed, what they may return and what becomes of
switches are such relations.
-/

namespace Vigil

variable {ds : List Doc.Case} {ids : List Ident} {d : Doc.Stmt} {span : Span} {written : List Case}

/-! ## Documents -/

/-- A switch as the document has it. -/
structure Doc.Switch where
  selector : Doc.Expr
  cases : List Doc.Case

namespace Doc

/-- The statement that an arm runs. -/
def Case.body : Case → Stmt
  | .mk _ _ body _ => body

/-- The statement that runs when time is up. -/
def Timeout.parts : Option Timeout → List Stmt
  | none => []
  | some (.mk _ body) => body.toList

namespace Stmt

/-- Form of the statement. -/
def tag : Stmt → StmtTag
  | .list .. => .list
  | .bodyList .. => .bodyList
  | .expr .. => .expr
  | .print .. => .print
  | .event .. => .event
  | .cond .. => .cond
  | .while .. => .while
  | .for .. => .for
  | .switch .. => .switch
  | .add .. => .add
  | .delete .. => .delete
  | .next _ => .next
  | .break _ => .break
  | .fallthrough _ => .fallthrough
  | .return .. => .return
  | .init .. => .init
  | .null _ => .null
  | .when .. => .when

/-- The statement as a switch, if it is one. -/
def switch? : Stmt → Option Switch
  | .switch selector cases _ => some ⟨selector, cases⟩
  | _ => none

/-- The statements that stand directly in it. -/
def parts : Stmt → List Stmt
  | .list body _ | .bodyList body _ => body
  | .cond _ thenBody elseBody _ => thenBody :: elseBody.toList
  | .while _ body _ | .for _ _ _ body _ => [body]
  | .switch _ cases _ => cases.map Case.body
  | .when _ body timeout _ _ => body :: Timeout.parts timeout
  | _ => []

end Stmt

end Doc

namespace Stmt

/-- What a `return` carries, if the statement is one. -/
def return? : Stmt → Option (Option Expr)
  | .return _ value => some value
  | _ => none

def switch? : Stmt → Option Switch
  | .switch _ selector arms d => some ⟨selector, arms, d⟩
  | _ => none

/-- It is no `return` and no switch. -/
structure Plain (t : Stmt) : Prop where
  return? : t.return? = none
  switch? : t.switch? = none

end Stmt

/-! ## Single statements -/

namespace Stmt

/-- Identifiers that the statement binds without naming or introducing them. -/
def assigned : Stmt → List Ident
  | .init _ idents => idents
  | .switch _ _ _ dispatch => dispatch.types.filterMap TypeArm.binding?
  | _ => []

/-- The identifiers that stand in the statement itself. -/
def ownIdents (t : Stmt) : List Ident :=
  Expr.identsOf t.exprs ++ t.introduced.map Introduced.ident ++ t.assigned

/-- The identifiers that stand in the statement and in all below it. -/
def allIdents (t : Stmt) : List Ident := t.preorder.flatMap ownIdents

/-- What is checked of a statement. -/
def Checked : Stmt → Prop
  | .for _ vars _ target _ => target.ty.AsksFor vars
  | .switch _ _ cases _ => ∀ c ∈ cases, c.body.lastTag.endsCase = true
  | _ => True

/-- The statement is typed, those that stand in it aside. -/
def OwnTyped (L : Layout) : Stmt → Prop
  | .expr _ e | .delete _ e => e.Typed L
  | .print _ args | .event _ _ args => Expr.TypedList L args
  | .cond _ test _ _ | .while _ test _ => test.Typed L
  | .for _ vars valueVar target _ => target.Typed L ∧ L.Loop vars valueVar target.ty
  | .switch _ selector _ dispatch => selector.Typed L ∧ dispatch.Typed L selector.ty
  | .add _ target => target.Typed L ∧ target.canAdd = true
  | .return _ value => ∀ e ∈ value, e.Typed L
  | .init _ idents => ∀ id ∈ idents, id ∈ L.idents
  | .when _ test _ timeout _ _ => test.Typed L ∧ ∀ e ∈ timeout, e.Typed L
  | _ => True

/-- What is known of a statement in a scope it was built in. -/
structure Vouched (G : Prop) (s : Scope) (t : Stmt) : Prop where
  idents : t.ownIdents ⊆ s.idents
  checked : s.NoErrors → t.Checked
  typed : G → s.Grants fun L => t.OwnTyped L

end Stmt

theorem Expr.identsOf_subset {es : List Expr} : identsOf es ⊆ ids ↔ ∀ e ∈ es, e.idents ⊆ ids := by
  rw [identsOf_eq]
  constructor
  · exact fun h e he id hid => h (List.mem_flatMap.mpr ⟨e, he, hid⟩)
  · intro h id hid
    obtain ⟨e, he, hid⟩ := List.mem_flatMap.mp hid
    exact h e he hid

section Vouched

variable {G : Prop} {s : Scope} {t : Stmt} {selector : Expr} {i : StmtInfo}

/-- A statement that names identifiers and does nothing else with them. -/
theorem Stmt.Vouched.of_exprs (hexprs : ∀ e ∈ t.exprs, e.idents ⊆ s.idents)
    (hown : t.introduced = [] ∧ t.assigned = []) (hchecked : t.Checked)
    (htyped : G → s.Grants fun L => t.OwnTyped L) : t.Vouched G s := by
  refine ⟨?_, fun _ => hchecked, htyped⟩
  rw [ownIdents, hown.1, hown.2, List.map_nil, List.append_nil, List.append_nil]
  exact Expr.identsOf_subset.mpr hexprs

theorem Stmt.introduced_for (i : StmtInfo) (vars : List Ident) (valueVar : Option Ident)
    (target : Expr) (body : Stmt) :
    (Stmt.for i vars valueVar target body).introduced.map Introduced.ident =
      vars ++ valueVar.toList := by
  rw [introduced, List.map_map]
  exact List.map_id _

/-- The identifiers of a switch stand in its selector, in the labels of its arms,
and where it dispatches to. -/
theorem Stmt.ownIdents_switch {cases : List Case} {dispatch : Dispatch}
    (hselector : selector.idents ⊆ ids) (hlabels : ∀ c ∈ cases, c.labels.idents ⊆ ids)
    (hdispatch : dispatch.types.filterMap TypeArm.binding? ⊆ ids) :
    (Stmt.switch i selector cases dispatch).ownIdents ⊆ ids := by
  refine List.append_subset.mpr ⟨List.append_subset.mpr ⟨?_, ?_⟩, hdispatch⟩
  · refine List.append_subset.mpr ⟨hselector, fun id hid => ?_⟩
    rw [Expr.identsOf_eq, List.flatMap_assoc] at hid
    obtain ⟨c, hc, hid⟩ := List.mem_flatMap.mp hid
    refine hlabels c hc ?_
    rw [← Expr.identsOf_eq] at hid
    revert hid
    cases c.labels with
    | values es => exact fun hid => hid
    | types ts | default => exact fun hid => absurd hid List.not_mem_nil
  · intro id hid
    obtain ⟨x, hx, rfl⟩ := List.mem_map.mp hid
    obtain ⟨c, hc, hx⟩ := List.mem_flatMap.mp hx
    refine hlabels c hc ?_
    revert hx
    cases c.labels with
    | types ts =>
      intro hx
      obtain ⟨t, ht, hbound⟩ := List.mem_filterMap.mp hx
      obtain ⟨id, hbinding, rfl⟩ := Option.map_eq_some_iff.mp hbound
      exact List.mem_filterMap.mpr ⟨t, ht, hbinding⟩
    | values es | default => exact fun hx => absurd hx List.not_mem_nil

/-- What is known of the arms of a switch in a scope they were built in. -/
structure Case.KnownList (ds : List Doc.Case) (s : Scope) (cs : List Case) : Prop where
  idents : ∀ c ∈ cs, c.labels.idents ⊆ s.idents
  ends : s.NoErrors → ∀ c ∈ cs, c.body.lastTag.endsCase = true
  foldable : ds.all Doc.Case.plainLabels = true → s.FitKeys → ∀ c ∈ cs, c.labels.Foldable
  typed : Doc.Stmt.plainCases ds = true → s.Grants fun L => ∀ c ∈ cs, c.labels.Typed L

theorem Case.KnownList.cons {values : Option (List Doc.Expr)} {types : Option (List Doc.TypeLabel)}
    {c : Case} {cs : List Case} (hc : c.labels.Known values types s)
    (hend : s.NoErrors → c.body.lastTag.endsCase = true) (hcs : KnownList ds s cs) :
    KnownList (.mk values types d span :: ds) s (c :: cs) where
  idents := List.forall_mem_cons.mpr ⟨hc.idents, hcs.idents⟩
  ends hne := List.forall_mem_cons.mpr ⟨hend hne, hcs.ends hne⟩
  foldable hplain hfit := by
    rw [List.all_cons, Bool.and_eq_true] at hplain
    exact List.forall_mem_cons.mpr ⟨hc.foldable hplain.1 hfit, hcs.foldable hplain.2 hfit⟩
  typed hplain hne L hL := by
    simp only [Doc.Stmt.plainCases, Bool.and_eq_true] at hplain
    obtain ⟨⟨⟨hvalues, htypes⟩, -⟩, hrest⟩ := hplain
    exact List.forall_mem_cons.mpr
      ⟨hc.typed hvalues htypes hne L hL, hcs.typed hrest hne L hL⟩

/-- A switch whose labels were checked and the problems with them reported. -/
theorem Stmt.vouched_switch {d : Doc.Expr}
    (hG : G → d.plain = true ∧ Doc.Stmt.plainCases ds = true)
    (hselector : selector.Known d s) (hwritten : Case.KnownList ds s written)
    (hproblems : s.NoErrors → ∀ p ∈ (Dispatch.ofCases selector written).2.problems,
      p.isError = false) :
    (Stmt.switch i selector (Dispatch.ofCases selector written).1
      (.ofDraft (Dispatch.ofCases selector written).2)).Vouched G s := by
  obtain ⟨hlabels, hdispatch⟩ := Dispatch.ofCases_kept selector hwritten.idents
  refine ⟨ownIdents_switch hselector.idents hlabels hdispatch, fun hne c hc => ?_,
    fun h hne L hL => ?_⟩
  · have hbodies := Dispatch.bodies_ofCases selector written
    obtain ⟨c', hc', hbody⟩ := List.mem_map.mp (hbodies ▸ List.mem_map_of_mem hc)
    exact hbody ▸ hwritten.ends hne c' hc'
  · have hsel := hselector.typed (hG h).1 hne L hL
    have hcs := hwritten.typed (hG h).2 hne L hL
    have hbreach := (Dispatch.ofCases_keyed selector fun c hc => (hcs c hc).foldable).1
    exact ⟨hsel, Dispatch.typed_ofCases hsel.clean hcs ⟨hproblems hne, hbreach⟩⟩

end Vouched

namespace BuildM

open Scope (Quiet Sometime)

/-! ## Steps -/

/-- The statement `t` of the document's `d`. Its parts were built from `s` on and
left `s₁`, and what is checked of itself leaves the last scope. -/
inductive Made (s s₁ : Scope) : Doc.Stmt → Stmt → Scope → Prop where
  | plain {d t} (htag : t.tag = d.tag) (hd : d.switch? = none)
      (ht : t.Plain) : Made s s₁ d t s₁
  /-- A `return` is judged. -/
  | return {written span i value} :
      Made s s₁ (.return written span) (.return i value) ((returnRule span value).run s₁).2
  /-- The labels of a switch are checked against its selector. -/
  | switch {e cases span i selector written} (hselector : selector = ((expr e).run s).1)
      (hwritten : written = ((caseList cases).run ((expr e).run s).2).1)
      (hknown : Case.KnownList cases s₁ written) :
      Made s s₁ (.switch e cases span)
        (.switch i selector (Dispatch.ofCases selector written).1
          (.ofDraft (Dispatch.ofCases selector written).2))
        ((dispatch selector written).run s₁).2

namespace Made

variable {s s₁ s₂ : Scope} {d : Doc.Stmt} {t : Stmt}

theorem tag (h : Made s s₁ d t s₂) : t.tag = d.tag := by
  cases h with
  | plain htag => exact htag
  | _ => rfl

theorem nextStmt (h : Made s s₁ d t s₂) : s₂.nextStmt = s₁.nextStmt := by cases h <;> rfl

theorem placed (h : Made s s₁ d t s₂) : s₂.placed = s₁.placed := by cases h <;> rfl

theorem names (h : Made s s₁ d t s₂) : s₂.names = s₁.names := by cases h <;> rfl

theorem grows (h : Made s s₁ d t s₂) : s₁.Grows s₂ := by
  cases h with
  | plain => exact .refl _
  | «return» => exact returnRule_grows _ _ _
  | switch => exact dispatch_grows _ _ _

end Made

/-- Checking a statement keeps the scope sane under `G`, and the statement is
vouched for from then on. -/
structure Backed (G : Prop) (s₁ s₂ : Scope) (t : Stmt) : Prop where
  keeps : G → s₁.Keeps s₂
  vouched : ∀ s', s₂.Grows s' → t.Vouched G s'

/-- A relation between the scope before, the statements of the document, the
statements built and the scope after that allows for each step of a
construction. -/
structure Follows (G : Prop) (R : Scope → List Doc.Stmt → List Stmt → Scope → Prop) : Prop where
  calm : ∀ {s s'}, s.Quiet s' → (G → s.Keeps s') → R s [] [] s'
  append : ∀ {s s' s'' docs docs' ss ss'}, R s docs ss s' → R s' docs' ss' s'' →
    R s (docs ++ docs') (ss ++ ss') s''
  /-- A statement that does not stand in the source. -/
  number : ∀ {s s' docs ss t span}, R s docs ss s' → t.Plain → Backed G s' s' t →
    t.info = ((BuildM.number span).run s').1 → R s docs (t :: ss) ((BuildM.number span).run s').2
  /-- A statement of the source is numbered after its parts. -/
  place : ∀ {s s₁ s₂ d ss t}, R s d.parts ss s₁ → t.preorder = t :: ss → Made s s₁ d t s₂ →
    Backed G s₁ s₂ t → t.info = ((BuildM.place d.span).run s₂).1 →
      R s [d] (t :: ss) ((BuildM.place d.span).run s₂).2

variable {α β : Type} {G : Prop} {R : Scope → List Doc.Stmt → List Stmt → Scope → Prop}
  {K : Scope → Prop} {x : BuildM α} {docs docs' : List Doc.Stmt} {old : List Stmt}

/-- When `old` was built from `docs` before, and `K` is known from then on, what `x`
gives was built from `docs'` after it, and `P` is known of it. -/
def Lays (R : Scope → List Doc.Stmt → List Stmt → Scope → Prop) (K : Scope → Prop)
    (docs : List Doc.Stmt) (old : List Stmt) (x : BuildM α) (docs' : List Doc.Stmt)
    (built : α → List Stmt) (P : Scope → α → Prop) : Prop :=
  ∀ s s' : Scope, (∀ s'', s'.Grows s'' → K s'') → R s docs old s' →
    R s docs' (built (x.run s').1) (x.run s').2 ∧ s'.Grows (x.run s').2 ∧
      ∀ s'', (x.run s').2.Grows s'' → P s'' (x.run s').1

namespace Lays

variable {built : α → List Stmt} {built' : β → List Stmt} {m : StmtInfo → Stmt} {span : Span}
  {P : Scope → α → Prop} {Q : Scope → β → Prop} {k : α → BuildM β} {docs'' : List Doc.Stmt}

theorem pure {a : α} (h : built a = old) (hP : ∀ s, K s → P s a) :
    Lays R K docs old (Pure.pure a) docs built P := by
  intro s s' hK hold
  refine ⟨?_, .refl s', fun s'' hs => hP s'' (hK s'' hs)⟩
  change R s docs (built a) s'
  rwa [h]

theorem bind (hx : Lays R K docs old x docs' built P)
    (hk : ∀ a, Lays R (fun s => K s ∧ P s a) docs' (built a) (k a) docs'' built' Q) :
    Lays R K docs old (x >>= k) docs'' built' Q := by
  intro s s' hK hold
  obtain ⟨hbuilt, hgrows, hP⟩ := hx s s' hK hold
  obtain ⟨hbuilt', hgrows', hQ⟩ := hk _ s _
    (fun s'' hs => ⟨hK s'' (hgrows.trans hs), hP s'' hs⟩) hbuilt
  exact ⟨hbuilt', hgrows.trans hgrows', hQ⟩

variable (hR : Follows G R)

include hR

/-- A part that builds no statement. What it needs to keep the scope sane is known. -/
theorem relied {H : Prop} (hx : Gives Quiet H x P) (hH : G → Sometime K → H)
    (hk : ∀ a, Lays R (fun s => K s ∧ P s a) docs old (k a) docs' built' Q) :
    Lays R K docs old (x >>= k) docs' built' Q := by
  refine .bind (P := P) (fun s s' hK hold => ?_) hk
  have hgrows := (hx.step s').grows
  have happend := hR.append hold (hR.calm (hx.step s') fun h hs hne =>
    hx.keeps (hH h ⟨s', hs, hgrows.noErrors hne, hK s' (.refl s')⟩) s' hs hne)
  rw [List.append_nil, List.append_nil] at happend
  exact ⟨happend, hgrows, hx.holds s'⟩

theorem quiet (hx : Gives Quiet True x P)
    (hk : ∀ a, Lays R (fun s => K s ∧ P s a) docs old (k a) docs' built' Q) :
    Lays R K docs old (x >>= k) docs' built' Q :=
  .relied hR hx (fun _ _ => trivial) hk

/-- A part that builds statements of its own. -/
theorem part (hx : Lays R (fun _ => True) [] [] x docs' built P)
    (hk : ∀ a, Lays R (fun s => K s ∧ P s a) (docs ++ docs') (old ++ built a) (k a) docs''
      built' Q) : Lays R K docs old (x >>= k) docs'' built' Q := by
  refine .bind (P := P) (fun s s' _ hold => ?_) hk
  obtain ⟨hbuilt, hrest⟩ := hx s' s' (fun _ _ => trivial) (hR.calm (.refl s') fun _ hs _ => hs)
  exact ⟨hR.append hold hbuilt, hrest⟩

theorem number (hm : ∀ i, (m i).Plain ∧ (m i).info = i)
    (hv : ∀ s i, K s → (m i).Vouched G s) :
    Lays R K docs old (BuildM.number span) docs (fun i => m i :: old) fun _ _ => True :=
  fun _ s' hK hold => ⟨hR.number hold (hm _).1
    ⟨fun _ hs _ => hs, fun s'' hs => hv s'' _ (hK s'' hs)⟩ (hm _).2, number_grows _ s',
      fun _ _ => trivial⟩

/-- A statement is complete when its parts are. -/
theorem finish (hd : d.parts = docs ∧ d.span = span ∧ d.switch? = none)
    (hm : ∀ i, (m i).preorder = m i :: old ∧ (m i).tag = d.tag ∧ (m i).Plain ∧ (m i).info = i)
    (hv : ∀ s i, K s → (m i).Vouched G s) :
    Lays R K docs old (do Pure.pure (m (← BuildM.place span))) [d] Stmt.preorder
      fun _ _ => True := by
  obtain ⟨rfl, rfl, hswitch⟩ := hd
  intro s s' hK hold
  obtain ⟨hpreorder, htag, hplain, hinfo⟩ := hm ((BuildM.place d.span).run s').1
  have hplace := hR.place hold hpreorder (.plain htag hswitch hplain)
    ⟨fun _ hs _ => hs, fun s'' hs => hv s'' _ (hK s'' hs)⟩ hinfo
  rw [← hpreorder] at hplace
  exact ⟨hplace, place_grows _ s', fun _ _ => trivial⟩

end Lays

/-! ## Statements -/

theorem return_lays (hR : Follows G R) {written : Option Doc.Expr} {value : Option Expr}
    (hK : ∀ s, K s → ∀ e ∈ value, e.idents ⊆ s.idents ∧ (G → s.Grants fun L => e.Typed L)) :
    Lays R K [] [] (do returnRule span value; Pure.pure (Stmt.return (← place span) value))
      [.return written span] Stmt.preorder fun _ _ => True := by
  intro s s' hknown hold
  have hjudged := returnRule_grows span value s'
  refine ⟨hR.place (d := .return written span) hold rfl .return
    ⟨fun _ => .of_eq hjudged rfl rfl, fun s'' hs => ?_⟩ rfl, hjudged.trans (place_grows _ _),
    fun _ _ => trivial⟩
  have hvalue := hK s'' (hknown s'' (hjudged.trans hs))
  exact .of_exprs (fun e he => (hvalue e (Option.mem_toList.mp he)).1) ⟨rfl, rfl⟩ trivial
    fun h hne L hL e he => (hvalue e he).2 h hne L hL

theorem dispatch_keeps {s : Scope} {selector : Expr} (hplain : Doc.Stmt.plainCases ds = true)
    (hknown : Case.KnownList ds s written) :
    s.Keeps ((dispatch selector written).run s).2 := by
  have hgrows := dispatch_grows selector written s
  refine fun hs hne => Scope.Keeps.of_eq hgrows rfl ?_ hs hne
  have hcs := hknown.typed hplain (hgrows.noErrors hne) hs.layout (List.Subset.refl _)
  change (s.breach? <|> (Dispatch.ofCases selector written).2.breach?) = s.breach?
  rw [(Dispatch.ofCases_keyed selector fun c hc => (hcs c hc).foldable).1, hs.breach]
  rfl

mutual

theorem stmt_lays (hR : Follows G R) : ∀ d : Doc.Stmt, (G → d.plain = true) →
    Lays R (fun _ => True) [] [] (stmt d) [d] Stmt.preorder fun _ _ => True
  | .list body span, hG | .bodyList body span, hG => by
    unfold stmt
    exact .part hR (stmts_lays hR body hG) fun _ => .finish hR ⟨rfl, rfl, rfl⟩
      (fun _ => ⟨rfl, rfl, ⟨rfl, rfl⟩, rfl⟩) fun s _ _ =>
        .of_exprs (List.forall_mem_nil _) ⟨rfl, rfl⟩ trivial fun _ _ _ _ => trivial
  | .expr e span, hG | .delete e span, hG => by
    unfold stmt
    exact .quiet hR (expr_gives e) fun _ => .quiet hR reportIf_gives fun _ =>
      .finish hR ⟨rfl, rfl, rfl⟩ (fun _ => ⟨rfl, rfl, ⟨rfl, rfl⟩, rfl⟩) fun s _ ⟨⟨_, he⟩, _⟩ =>
        .of_exprs (List.forall_mem_singleton.mpr he.idents) ⟨rfl, rfl⟩ trivial
          fun h => he.typed (hG h)
  | .add e span, hG => by
    unfold stmt
    refine .quiet hR (expr_gives e) fun _ => .quiet hR reportIf_gives fun _ =>
      .finish hR ⟨rfl, rfl, rfl⟩ (fun _ => ⟨rfl, rfl, ⟨rfl, rfl⟩, rfl⟩) fun s _ ⟨⟨_, he⟩, hadd⟩ =>
        .of_exprs (List.forall_mem_singleton.mpr he.idents) ⟨rfl, rfl⟩ trivial
          fun h hne L hL => ⟨he.typed (hG h) hne L hL, ?_⟩
    simpa using hadd rfl hne
  | .print args span, hG | .event _ args span, hG => by
    unfold stmt
    exact .quiet hR (exprs_gives args) fun _ => .quiet hR (reportAll_gives _) fun _ =>
      .finish hR ⟨rfl, rfl, rfl⟩ (fun _ => ⟨rfl, rfl, ⟨rfl, rfl⟩, rfl⟩) fun s _ ⟨⟨_, he⟩, _⟩ =>
        .of_exprs (Expr.identsOf_subset.mp he.idents) ⟨rfl, rfl⟩ trivial fun h => he.typed (hG h)
  | .cond test thenBody elseBody span, hG => by
    simp only [Doc.Stmt.plain, Bool.and_eq_true] at hG
    unfold stmt
    refine .quiet hR (expr_gives test) fun test => ?_
    refine .part hR (stmt_lays hR thenBody fun h => (hG h).1.2) fun _ => ?_
    refine .part hR (stmtOption_lays hR elseBody fun h => (hG h).2) fun elseBody => ?_
    refine .quiet hR reportIf_gives fun _ => ?_
    -- a missing branch is an empty statement
    cases elseBody with
    | none =>
      refine .part hR (.number (m := Stmt.null) hR (fun _ => ⟨⟨rfl, rfl⟩, rfl⟩) fun _ _ _ =>
        .of_exprs (List.forall_mem_nil _) ⟨rfl, rfl⟩ trivial fun _ _ _ _ => trivial) fun i => ?_
      rw [List.append_nil, Option.elim_none, List.append_nil]
      simp only [pure_bind]
      exact .finish hR ⟨rfl, rfl, rfl⟩ (fun _ => ⟨rfl, rfl, ⟨rfl, rfl⟩, rfl⟩)
        fun s _ ⟨⟨⟨⟨⟨_, he⟩, _⟩, _⟩, _⟩, _⟩ =>
          .of_exprs (List.forall_mem_singleton.mpr he.idents) ⟨rfl, rfl⟩ trivial
            fun h => he.typed (hG h).1.1
    | some elseBody =>
      simp only [pure_bind]
      exact .finish hR ⟨rfl, rfl, rfl⟩ (fun _ => ⟨rfl, rfl, ⟨rfl, rfl⟩, rfl⟩)
        fun s _ ⟨⟨⟨⟨_, he⟩, _⟩, _⟩, _⟩ =>
          .of_exprs (List.forall_mem_singleton.mpr he.idents) ⟨rfl, rfl⟩ trivial
            fun h => he.typed (hG h).1.1
  | .while test body span, hG => by
    simp only [Doc.Stmt.plain, Bool.and_eq_true] at hG
    unfold stmt
    exact .quiet hR (expr_gives test) fun _ => .part hR (stmt_lays hR body fun h => (hG h).2)
      fun _ => .quiet hR reportIf_gives fun _ => .finish hR ⟨rfl, rfl, rfl⟩
        (fun _ => ⟨rfl, rfl, ⟨rfl, rfl⟩, rfl⟩) fun s _ ⟨⟨⟨_, he⟩, _⟩, _⟩ =>
          .of_exprs (List.forall_mem_singleton.mpr he.idents) ⟨rfl, rfl⟩ trivial
            fun h => he.typed (hG h).1
  | .for vars value iterable body span, hG => by
    simp only [Doc.Stmt.plain, Bool.and_eq_true] at hG
    have hclean : ∀ {target : Expr}, G → Sometime (fun s => target.Known iterable s) →
        target.ty.clean = true := fun h hs =>
      let ⟨_, htyped⟩ := (hs.imp fun _ ht => ht.typed (hG h).1.2).grants
      htyped.clean
    unfold stmt
    refine .quiet hR (expr_gives iterable) fun target => ?_
    refine .relied hR loopVars_gives (fun h hs =>
      ⟨hclean h (hs.imp fun _ hs => hs.2), (hG h).1.1.1⟩) fun vars' => ?_
    have hvalue : G → ∀ var ∈ value, var.plain = true := fun h var hvar => by
      simpa [Option.mem_def.mp hvar] using (hG h).1.1.2
    refine .relied hR (H := G ∧ target.ty.clean = true)
      (.mapM fun var hvar => valueVar_gives.guard fun h => ⟨h.2, hvalue h.1 var hvar⟩)
        (fun h hs => ⟨h, hclean h (hs.imp fun _ hs => hs.1.2)⟩) fun value' => ?_
    refine .part hR (stmt_lays hR body fun h => (hG h).2) fun _ => .finish hR ⟨rfl, rfl, rfl⟩
      (fun _ => ⟨rfl, rfl, ⟨rfl, rfl⟩, rfl⟩) ?_
    rintro s i ⟨⟨⟨⟨-, htarget⟩, hvars⟩, hvalues⟩, -⟩
    refine ⟨?_, fun hne => hvars.2.1 hne, fun h hne L hL => ?_⟩
    · refine List.append_subset.mpr ⟨List.append_subset.mpr ⟨?_, ?_⟩, List.nil_subset _⟩
      · exact Expr.identsOf_subset.mpr (List.forall_mem_singleton.mpr htarget.idents)
      · rw [Stmt.introduced_for]
        refine List.append_subset.mpr ⟨hvars.1, fun id hid => ?_⟩
        obtain ⟨_, -, hid, -⟩ := hvalues id (Option.mem_toList.mp hid)
        exact hid
    · have htyped := htarget.typed (hG h).1.2 hne L hL
      have hloop := hvars.2.2 htyped.clean (hG h).1.1.1 hne L hL
      refine ⟨htyped, ?_⟩
      -- only a table has a value variable; elsewhere it was reported
      cases value' with
      | none => exact hloop
      | some id =>
        obtain ⟨var, hvar, -, hfits⟩ := hvalues id rfl
        exact hfits htyped.clean (hvalue h var hvar) hne L hL _ hloop
  | .switch selector cases span, hG => by
    simp only [Doc.Stmt.plain, Bool.and_eq_true] at hG
    unfold stmt
    intro s s' _ hold
    have hexpr := expr_gives (R := Quiet) (G := True) selector
    obtain ⟨hparts, hgrows, hknown⟩ := caseList_lays hR cases (fun h => (hG h).2) s' _
      (fun _ _ => trivial) (hR.calm (hexpr.step s') fun _ => hexpr.keeps trivial s')
    rw [← Dispatch.preorderCases_ofCases ((expr selector).run s').1] at hparts
    have hchecked := dispatch_grows ((expr selector).run s').1
      ((caseList cases).run ((expr selector).run s').2).1
      ((caseList cases).run ((expr selector).run s').2).2
    refine ⟨hR.append hold (hR.place (d := .switch selector cases span) hparts rfl
      (.switch rfl rfl (hknown _ (.refl _))) ⟨fun h => dispatch_keeps (hG h).2 (hknown _ (.refl _)),
        fun s'' hs => ?_⟩ rfl), ?_, fun _ _ => trivial⟩
    · refine Stmt.vouched_switch hG (hexpr.holds s' s'' ?_) (hknown s'' (hchecked.trans hs))
        fun hne p hp => ?_
      · exact hgrows.trans (hchecked.trans hs)
      · exact hs.noErrors hne p (Array.mem_append_right _ (List.mem_toArray.mpr hp))
    · exact (((hexpr.step s').grows.trans hgrows).trans hchecked).trans (place_grows _ _)
  | .next span, _ | .break span, _ | .fallthrough span, _ | .null span, _ => by
    unfold stmt
    exact .finish hR ⟨rfl, rfl, rfl⟩ (fun _ => ⟨rfl, rfl, ⟨rfl, rfl⟩, rfl⟩) fun s _ _ =>
      .of_exprs (List.forall_mem_nil _) ⟨rfl, rfl⟩ trivial fun _ _ _ _ => trivial
  | .return value span, hG => by
    unfold stmt
    refine .quiet hR (.mapM fun e _ => expr_gives e) fun _ => return_lays hR fun s hs e he => ?_
    obtain ⟨d, hd, hknown⟩ := hs.2 e he
    refine ⟨hknown.idents, fun h => hknown.typed ?_⟩
    simpa [Doc.Stmt.plain, Option.mem_def.mp hd] using hG h
  | .init names span, _ => by
    unfold stmt
    exact .quiet hR (initIdents_gives names) fun _ => .finish hR ⟨rfl, rfl, rfl⟩
      (fun _ => ⟨rfl, rfl, ⟨rfl, rfl⟩, rfl⟩) fun s _ hids =>
        ⟨hids.2, fun _ => trivial, fun _ _ L hL id hid => hL (hids.2 hid)⟩
  | .when test body timeout isReturn span, hG => by
    simp only [Doc.Stmt.plain, Bool.and_eq_true] at hG
    unfold stmt
    refine .quiet hR (expr_gives test) fun test' => ?_
    refine .part hR (stmt_lays hR body fun h => (hG h).1.2) fun body' => ?_
    refine .part hR (timeoutClause_lays hR timeout fun h => (hG h).2) fun clause => ?_
    obtain ⟨deadline, timeoutBody⟩ := clause
    have hpreorder : ∀ i, (Stmt.when i test' body' deadline timeoutBody isReturn).preorder =
        .when i test' body' deadline timeoutBody isReturn ::
          (body'.preorder ++ timeoutBody.elim [] Stmt.preorder) := by
      intro i
      cases timeoutBody with
      | none => rw [Option.elim_none, List.append_nil]; rfl
      | some timeoutBody => rfl
    have hwhen : ∀ {s i}, test'.Known test s → (∀ e ∈ deadline, e.idents ⊆ s.idents ∧
        (G → s.Grants fun L => e.Typed L)) →
        (Stmt.when i test' body' deadline timeoutBody isReturn).Vouched G s := by
      intro s i htest hdeadline
      refine .of_exprs (List.forall_mem_cons.mpr ⟨htest.idents, fun e he => ?_⟩) ⟨rfl, rfl⟩ trivial
        fun h hne L hL => ⟨htest.typed (hG h).1.1 hne L hL, fun e he =>
          (hdeadline e he).2 h hne L hL⟩
      exact (hdeadline e (Option.mem_toList.mp he)).1
    refine .quiet hR reportIf_gives fun _ => ?_
    cases deadline with
    | none =>
      exact .finish hR ⟨rfl, rfl, rfl⟩ (fun i => ⟨hpreorder i, rfl, ⟨rfl, rfl⟩, rfl⟩)
        fun s i ⟨⟨⟨⟨_, htest⟩, _⟩, hclause⟩, _⟩ => hwhen htest hclause
    | some e =>
      exact .quiet hR reportIf_gives fun _ => .finish hR ⟨rfl, rfl, rfl⟩
        (fun i => ⟨hpreorder i, rfl, ⟨rfl, rfl⟩, rfl⟩)
          fun s i ⟨⟨⟨⟨⟨_, htest⟩, _⟩, hclause⟩, _⟩, _⟩ => hwhen htest hclause

theorem stmts_lays (hR : Follows G R) : ∀ body : List Doc.Stmt,
    (G → Doc.Stmt.plainList body = true) →
      Lays R (fun _ => True) [] [] (stmts body) body Stmt.preorderList fun _ _ => True
  | [], _ => by
    unfold stmts
    exact .pure rfl fun _ h => h
  | d :: rest, hG => by
    simp only [Doc.Stmt.plainList, Bool.and_eq_true] at hG
    unfold stmts
    exact .part hR (stmt_lays hR d fun h => (hG h).1) fun _ =>
      .part hR (stmts_lays hR rest fun h => (hG h).2) fun _ => .pure rfl fun _ _ => trivial

theorem stmtOption_lays (hR : Follows G R) : ∀ d : Option Doc.Stmt,
    (G → Doc.Stmt.plainOption d = true) →
      Lays R (fun _ => True) [] [] (stmtOption d) d.toList (fun s' => s'.elim [] Stmt.preorder)
        fun _ _ => True
  | none, _ => by
    unfold stmtOption
    exact .pure rfl fun _ h => h
  | some d, hG => by
    unfold stmtOption
    exact .part hR (stmt_lays hR d hG) fun _ => .pure rfl fun _ _ => trivial

theorem timeoutClause_lays (hR : Follows G R) : ∀ timeout : Option Doc.Timeout,
    (G → Doc.Stmt.plainTimeout timeout = true) →
      Lays R (fun _ => True) [] [] (timeoutClause timeout) (Doc.Timeout.parts timeout)
        (fun r => r.2.elim [] Stmt.preorder) fun s r => ∀ e ∈ r.1, e.idents ⊆ s.idents ∧
          (G → s.Grants fun L => e.Typed L)
  | none, _ => by
    unfold timeoutClause
    exact .pure rfl fun _ _ _ he => absurd he (Option.not_mem_none _)
  | some (.mk e body), hG => by
    simp only [Doc.Stmt.plainTimeout, Bool.and_eq_true] at hG
    unfold timeoutClause
    refine .quiet hR (expr_gives e) fun _ => .part hR
      (stmtOption_lays hR body fun h => (hG h).2) fun _ => .pure rfl fun s ⟨⟨_, he⟩, _⟩ e' he' => ?_
    cases he'
    exact ⟨he.idents, fun h => he.typed (hG h).1⟩

theorem caseList_lays (hR : Follows G R) : ∀ cases : List Doc.Case,
    (G → Doc.Stmt.plainCases cases = true) →
      Lays R (fun _ => True) [] [] (caseList cases) (cases.map Doc.Case.body) Stmt.preorderCases
        (Case.KnownList cases)
  | [], _ => by
    unfold caseList
    exact .pure rfl fun _ _ => ⟨List.forall_mem_nil _, fun _ => List.forall_mem_nil _,
      fun _ _ => List.forall_mem_nil _, fun _ _ _ _ => List.forall_mem_nil _⟩
  | .mk values types body span :: rest, hG => by
    simp only [Doc.Stmt.plainCases, Bool.and_eq_true] at hG
    unfold caseList
    refine .relied hR caseLabels_gives (fun h _ => (hG h).1.1.2) fun _ => ?_
    refine .part hR (stmt_lays hR body fun h => (hG h).1.2) fun _ => ?_
    refine .quiet hR reportIf_gives fun _ => ?_
    refine .part hR (caseList_lays hR rest fun h => (hG h).2) fun _ => .pure rfl ?_
    rintro s ⟨⟨⟨⟨-, hlabels⟩, -⟩, hend⟩, hrest⟩
    exact hrest.cons hlabels fun hne => by simpa [Case.body] using hend rfl hne

end

/-! ## Units -/

theorem locals_declare (u : Doc.Unit) (s : Scope) :
    s.Declares ((localDecls u.locals).run s).2 :=
  ((localDecls_gives u.locals False.elim).step s).toDeclares

/-- The statements of a unit were built one after the other. -/
theorem unitBody_follows (hR : Follows G R) {u : Doc.Unit} (hG : G → u.body.plain = true)
    {s s' : Scope} (hlocals : R s [] [] ((localDecls u.locals).run s').2) :
    R s [u.body] ((unitBody u).run s').1.preorder ((unitBody u).run s').2 := by
  have hlays : ∀ collections : List Ident, Lays R (fun s => collections ⊆ s.idents) [] [] (do
      let body ← stmt u.body
      if collections.isEmpty then pure body
      else
        let init ← number u.body.span
        let list ← number u.body.span
        pure (.list list [.init init collections, body])) [u.body] Stmt.preorder
          fun _ _ => True := by
    intro collections
    refine .part hR (stmt_lays hR u.body hG) fun body => ?_
    split
    · exact .pure rfl fun _ _ => trivial
    · -- the body stands behind a statement that makes the collections
      refine .bind (.number (m := fun i => .init i collections) hR
        (fun _ => ⟨⟨rfl, rfl⟩, rfl⟩) fun s i hids =>
          ⟨hids.1, fun _ => trivial, fun _ _ L hL id hid => hL (hids.1 hid)⟩) fun i => ?_
      refine .bind (.number (m := fun j => .list j [.init i collections, body]) hR
        (fun _ => ⟨⟨rfl, rfl⟩, rfl⟩) fun s j _ =>
          .of_exprs (List.forall_mem_nil _) ⟨rfl, rfl⟩ trivial fun _ _ _ _ => trivial)
            fun j => .pure ?_ fun _ _ => trivial
      change _ :: _ :: (body.preorder ++ []) = _
      rw [List.append_nil]
      rfl
  exact (hlays _ s _ ((localDecls_gives u.locals False.elim).holds s') hlocals).1

end BuildM

end Vigil
