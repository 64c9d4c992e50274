import Vigil.Proofs.Doc.Finite

/-!
# Vigil.Proofs.Doc.RoundTrip — units read back as they were written

A writer leaves out absent options and unknown spans, and the reader puts them
back; every form has its own tag. The readers of nested forms count levels, so
the proofs for types, expressions and statements go by induction on the levels
a tree has, with one case per form. In each case the parts are a level deeper
and read back by induction; what is left computes.
-/

namespace Vigil

open Json (ReadsBack)

/-! ## Types and spans -/

theorem Ty.toJsonList_eq (ts : List Ty) : Ty.toJsonList ts = ts.map Ty.toJson := by
  induction ts with
  | nil => rfl
  | cons t ts ih => rw [toJsonList, ih, List.map_cons]

theorem Ty.toJson_ne_null (t : Ty) : t.toJson ≠ .null := by
  cases t <;> simp [Ty.toJson, Json.tagged]

theorem Ty.ofJson?_toJson {d : Nat} (inside : Bool) (t : Ty) (h : t.toJson.depth ≤ d) :
    Ty.ofJson? (d + 1) inside t.toJson = some t := by
  induction d generalizing inside t with
  | zero => cases t <;> simp [Ty.toJson] at h
  | succ d ih =>
    specialize ih true
    have back (t : Ty) (h : t.toJson.depth ≤ d) :
        ReadsBack (Ty.ofJson? (d + 1) true) Ty.toJson t := ⟨ih t h, t.toJson_ne_null⟩
    rw [Ty.ofJson?]
    cases t
    all_goals
      -- the tag selects the form
      rw [Ty.toJson, Json.form?_tagged_bind (by simp)]
      dsimp only
    case table index y =>
      rw [Ty.toJson] at h
      rw [Ty.toJsonList_eq] at h ⊢
      have hindex : (Json.arr (index.map Ty.toJson)).depth ≤ d :=
        Json.depth_le_of_tagged h "index" (by simp)
      have hy : y.toJson.depth ≤ d := Json.depth_le_of_tagged h "yield_type" (by simp)
      simp [Json.listOf?_of_depth hindex fun t _ => back t,
        Json.readOption_some y.toJson_ne_null, ih y hy]
    case set index =>
      rw [Ty.toJson] at h
      rw [Ty.toJsonList_eq] at h ⊢
      have hindex : (Json.arr (index.map Ty.toJson)).depth ≤ d :=
        Json.depth_le_of_tagged h "index" (by simp)
      simp [Json.listOf?_of_depth hindex fun t _ => back t]
    case vector e =>
      rw [Ty.toJson] at h
      have he : e.toJson.depth ≤ d := Json.depth_le_of_tagged h "elem" (by simp)
      simp [ih e he]
    -- the others have no members
    all_goals rfl

theorem Ty.readsBack (t : Ty) :
    ReadsBack Ty.read? Ty.toJson t ∧ ReadsBack Ty.part? Ty.toJson t :=
  ⟨⟨Ty.ofJson?_toJson false t (Nat.le_refl _), t.toJson_ne_null⟩,
    ⟨Ty.ofJson?_toJson true t (Nat.le_refl _), t.toJson_ne_null⟩⟩

theorem Span.ofJson?_toJson (s : Span) : Span.ofJson? s.toJson = some s := by
  simp [Span.ofJson?, Span.toJson, Json.nat?]

/-- The tree of a span, if it is written. -/
def Span.member? (s : Span) : Option Json := if s = .unknown then none else some s.toJson

@[simp] theorem Span.named_members (name : String) (s : Span) :
    Json.named name s.members = if "span" = name then s.member?.toList else [] := by
  unfold members member?
  split <;> simp

@[simp] theorem Span.elim_member? (s : Span) :
    s.member?.elim (some .unknown) Span.ofJson? = some s := by
  unfold member?
  split
  · simp [*]
  · exact Span.ofJson?_toJson s

@[simp] theorem Span.read?_eq (members : List (String × Json)) :
    Span.read? members = (Json.sole (Json.named "span" members)).bind fun o =>
      o.elim (some .unknown) Span.ofJson? := by
  rw [Span.read?, Json.withDefault?_eq]

namespace Doc

open Double (AllFinite)

/-! ## Parts -/

theorem Lit.readsBack (inside : Bool) {l : Lit} (h : AllFinite l.doubles) :
    ReadsBack (Lit.ofJson? inside) Lit.toJson l := by
  refine ⟨?_, by cases l <;> simp [Lit.toJson, Json.tagged]⟩
  cases l with
  | bool v => simp [Lit.toJson, Lit.ofJson?, Json.bool?]
  | int v =>
    have hv : Word.IsSigned v.toInt := ⟨v.minValue_le_toInt, v.toInt_le⟩
    simp [Lit.toJson, Lit.ofJson?, Json.int64?, hv]
  | count v =>
    have hv : Word.IsUnsigned v.toNat := by
      have := v.toNat_lt
      simp only [Word.IsUnsigned, Word.maxUnsigned]
      omega
    simp [Lit.toJson, Lit.ofJson?, Json.uint64?, hv]
  | str v => simp [Lit.toJson, Lit.ofJson?, Json.str?]
  | double v | interval v | time v =>
    have hv : v.isFinite := by simpa [Lit.doubles] using h
    simp [Lit.toJson, Lit.ofJson?, Json.double?, Json.ofDouble, hv]

theorem UnitKind.readsBack (k : UnitKind) : ReadsBack UnitKind.ofJson? UnitKind.toJson k := by
  refine ⟨?_, by cases k <;> simp [UnitKind.toJson, Json.tagged]⟩
  cases k with
  | function y =>
    simp [UnitKind.toJson, UnitKind.ofJson?, Json.readOption_map fun t _ => (Ty.readsBack t).2]
  | _ => simp [UnitKind.toJson, UnitKind.ofJson?]

theorem LocalDecl.readsBack {d : LocalDecl} (h : ∀ l ∈ d.const?, AllFinite l.doubles) :
    ReadsBack LocalDecl.ofJson? LocalDecl.toJson d := by
  refine ⟨?_, by simp [LocalDecl.toJson]⟩
  simp [LocalDecl.toJson, LocalDecl.ofJson?, Json.str?, (Ty.readsBack d.ty).1.read_write,
    Json.readOption_map fun l hl => Lit.readsBack false (h l hl)]

theorem LoopVar.readsBack (v : LoopVar) : ReadsBack LoopVar.ofJson? LoopVar.toJson v := by
  refine ⟨?_, by simp [LoopVar.toJson]⟩
  simp [LoopVar.toJson, LoopVar.ofJson?, Json.str?,
    Json.readOption_map fun t _ => (Ty.readsBack t).2]

theorem TypeLabel.readsBack (l : TypeLabel) : ReadsBack TypeLabel.ofJson? TypeLabel.toJson l := by
  refine ⟨?_, by simp [TypeLabel.toJson]⟩
  simp [TypeLabel.toJson, TypeLabel.ofJson?, (Ty.readsBack l.ty).2.read_write,
    Json.readOption_map fun s _ => Json.str?_readsBack s]

theorem unaryOp?_name (op : UnaryOp) : unaryOp? (.str op.name) = some op := by
  cases op <;> decide

theorem binaryOp?_name (op : BinaryOp) : binaryOp? (.str op.name) = some op := by
  cases op <;> decide

/-! ## Expressions -/

theorem Expr.toJsonList_eq (es : List Expr) : Expr.toJsonList es = es.map Expr.toJson := by
  induction es with
  | nil => rfl
  | cons e es ih => rw [toJsonList, ih, List.map_cons]

theorem Expr.toJson_ne_null (e : Expr) : e.toJson ≠ .null := by
  cases e <;> simp [Expr.toJson, Json.tagged]

theorem Expr.ofJson?_toJson {d : Nat} (inside : Bool) (e : Expr) (h : e.toJson.depth ≤ d)
    (hfinite : AllFinite e.doubles) : Expr.ofJson? (d + 1) inside e.toJson = some e := by
  induction d generalizing inside e with
  | zero => cases e <;> simp [Expr.toJson] at h
  | succ d ih =>
    specialize ih true
    have back (es : List Expr) (hf : ∀ e ∈ es, AllFinite e.doubles) (e : Expr) (he : e ∈ es)
        (h : e.toJson.depth ≤ d) : ReadsBack (Expr.ofJson? (d + 1) true) Expr.toJson e :=
      ⟨ih e h (hf e he), e.toJson_ne_null⟩
    rw [Expr.ofJson?]
    cases e
    all_goals
      -- the tag selects the form
      rw [Expr.toJson, Json.form?_tagged_bind (by simp)]
      dsimp only
    case const value span =>
      have hvalue := (Lit.readsBack true hfinite).read_write
      simp [hvalue]
    case name ident span => simp [Json.str?]
    case unary op operand span =>
      rw [Expr.toJson] at h
      have hoperand : operand.toJson.depth ≤ d := Json.depth_le_of_tagged h "operand" (by simp)
      simp [unaryOp?_name, ih operand hoperand hfinite]
    case binary op lhs rhs span =>
      rw [Expr.toJson] at h
      obtain ⟨hfl, hfr⟩ := (Double.allFinite_append ..).mp hfinite
      have hlhs : lhs.toJson.depth ≤ d := Json.depth_le_of_tagged h "lhs" (by simp)
      have hrhs : rhs.toJson.depth ≤ d := Json.depth_le_of_tagged h "rhs" (by simp)
      simp [binaryOp?_name, ih lhs hlhs hfl, ih rhs hrhs hfr]
    case assign target value span =>
      rw [Expr.toJson] at h
      obtain ⟨hft, hfv⟩ := (Double.allFinite_append ..).mp hfinite
      have htarget : target.toJson.depth ≤ d := Json.depth_le_of_tagged h "target" (by simp)
      have hvalue : value.toJson.depth ≤ d := Json.depth_le_of_tagged h "value" (by simp)
      simp [ih target htarget hft, ih value hvalue hfv]
    case index target indices span =>
      rw [Expr.toJson] at h
      rw [Expr.toJsonList_eq] at h ⊢
      rw [Expr.doubles, Expr.doublesList_eq, Double.allFinite_append,
        Double.allFinite_flatMap] at hfinite
      have htarget : target.toJson.depth ≤ d := Json.depth_le_of_tagged h "target" (by simp)
      have hindices : (Json.arr (indices.map Expr.toJson)).depth ≤ d :=
        Json.depth_le_of_tagged h "index" (by simp)
      simp [ih target htarget hfinite.1, Json.listOf?_of_depth hindices (back _ hfinite.2)]
    case member elem target span =>
      rw [Expr.toJson] at h
      rw [Expr.toJsonList_eq] at h ⊢
      rw [Expr.doubles, Expr.doublesList_eq, Double.allFinite_append,
        Double.allFinite_flatMap] at hfinite
      have helem : (Json.arr (elem.map Expr.toJson)).depth ≤ d :=
        Json.depth_le_of_tagged h "elem" (by simp)
      have htarget : target.toJson.depth ≤ d := Json.depth_le_of_tagged h "target" (by simp)
      simp [Json.listOf?_of_depth helem (back _ hfinite.1), ih target htarget hfinite.2]
    case size operand span =>
      rw [Expr.toJson] at h
      have hoperand : operand.toJson.depth ≤ d := Json.depth_le_of_tagged h "operand" (by simp)
      simp [ih operand hoperand hfinite]

theorem Expr.readsBack {e : Expr} (h : AllFinite e.doubles) :
    ReadsBack Expr.part? Expr.toJson e :=
  ⟨Expr.ofJson?_toJson true e (Nat.le_refl _) h, e.toJson_ne_null⟩

theorem Expr.listOf?_toJsonList {es : List Expr} (h : AllFinite (Expr.doublesList es)) :
    Json.listOf? Expr.part? (.arr (Expr.toJsonList es)) = some es := by
  rw [Expr.doublesList_eq, Double.allFinite_flatMap] at h
  rw [Expr.toJsonList_eq]
  exact Json.listOf?_map fun e he => Expr.readsBack (h e he)

/-! ## Statements -/

def Case.toJson : Case → Json
  | .mk values types body span =>
    .obj (Json.optional "values" (values.map fun es => .arr (Expr.toJsonList es))
      ++ Json.optional "types" (types.map fun ls => .arr (ls.map TypeLabel.toJson))
      ++ [("body", Stmt.toJson body)] ++ span.members)

def Timeout.toJson : Timeout → Json
  | .mk e body =>
    .obj ([("expr", e.toJson)] ++ Json.optional "body" (Stmt.toJsonOption body))

theorem Stmt.toJsonList_eq (ss : List Stmt) : Stmt.toJsonList ss = ss.map Stmt.toJson := by
  induction ss with
  | nil => rfl
  | cons s ss ih => rw [toJsonList, ih, List.map_cons]

theorem Stmt.toJsonOption_eq (o : Option Stmt) : Stmt.toJsonOption o = o.map Stmt.toJson := by
  cases o <;> rfl

theorem Stmt.toJsonCases_eq (cs : List Case) : Stmt.toJsonCases cs = cs.map Case.toJson := by
  induction cs with
  | nil => rfl
  | cons c cs ih =>
    cases c
    rw [toJsonCases, ih, List.map_cons, Case.toJson]

theorem Stmt.toJsonTimeout_eq (o : Option Timeout) :
    Stmt.toJsonTimeout o = o.map Timeout.toJson := by
  rcases o with _ | ⟨e, body⟩ <;> rfl

theorem Stmt.toJson_ne_null (s : Stmt) : s.toJson ≠ .null := by
  cases s <;> simp [Stmt.toJson, Json.tagged]

section Parts

variable {d : Nat} {read : Json → Option Stmt}
  (back : ∀ s : Stmt, s.toJson.depth ≤ d → AllFinite s.doubles → ReadsBack read Stmt.toJson s)

include back

theorem Case.readsBack {c : Case} (h : c.toJson.depth ≤ d) (hfinite : AllFinite c.doubles) :
    ReadsBack (Case.ofJson? read) Case.toJson c := by
  obtain ⟨values, types, body, span⟩ := c
  refine ⟨?_, by simp [Case.toJson]⟩
  rw [Case.toJson] at h ⊢
  obtain ⟨hvalues, hbody⟩ := (Double.allFinite_append ..).mp hfinite
  have hdepth : body.toJson.depth ≤ d :=
    Json.depth_le_of_obj (Nat.le_succ_of_le h) "body" (by simp)
  have hlabels : ∀ es ∈ values, ReadsBack (Json.listOf? Expr.part?)
      (fun es => .arr (Expr.toJsonList es)) es := by
    rintro es rfl
    exact ⟨Expr.listOf?_toJsonList hvalues, by simp⟩
  have htypes : ∀ ls ∈ types, ReadsBack (Json.listOf? TypeLabel.ofJson?)
      (fun ls => .arr (ls.map TypeLabel.toJson)) ls := fun ls _ =>
    ⟨Json.listOf?_map fun l _ => TypeLabel.readsBack l, by simp⟩
  simp [Case.ofJson?, Json.readOption_map hlabels, Json.readOption_map htypes,
    (back body hdepth hbody).read_write]

theorem Timeout.readsBack {t : Timeout} (h : t.toJson.depth ≤ d)
    (hfinite : AllFinite t.doubles) : ReadsBack (Timeout.ofJson? read) Timeout.toJson t := by
  obtain ⟨e, body⟩ := t
  refine ⟨?_, by simp [Timeout.toJson]⟩
  rw [Timeout.toJson, Stmt.toJsonOption_eq] at h ⊢
  rw [Timeout.doubles, Stmt.doublesOption_eq, Double.allFinite_append,
    Double.allFinite_flatMap] at hfinite
  have hbody : ∀ s ∈ body, ReadsBack read Stmt.toJson s := fun s hs =>
    back s (Json.depth_le_of_obj (Nat.le_succ_of_le h) "body" (by simpa using ⟨s, hs, rfl⟩))
      (hfinite.2 s (by simpa using hs))
  simp [Timeout.ofJson?, (Expr.readsBack hfinite.1).read_write,
    Json.readOption_map hbody]

end Parts

theorem Stmt.ofJson?_toJson {d : Nat} (inside : Bool) (s : Stmt) (h : s.toJson.depth ≤ d)
    (hfinite : AllFinite s.doubles) : Stmt.ofJson? (d + 1) inside s.toJson = some s := by
  induction d generalizing inside s with
  | zero => cases s <;> simp [Stmt.toJson] at h
  | succ d ih =>
    specialize ih true
    have back (s : Stmt) (h : s.toJson.depth ≤ d) (hf : AllFinite s.doubles) :
        ReadsBack (Stmt.ofJson? (d + 1) true) Stmt.toJson s := ⟨ih s h hf, s.toJson_ne_null⟩
    have backs (ss : List Stmt) (h : (Json.arr (Stmt.toJsonList ss)).depth ≤ d)
        (hf : AllFinite (Stmt.doublesList ss)) :
        Json.listOf? (Stmt.ofJson? (d + 1) true) (.arr (Stmt.toJsonList ss)) = some ss := by
      rw [Stmt.doublesList_eq, Double.allFinite_flatMap] at hf
      rw [Stmt.toJsonList_eq] at h ⊢
      exact Json.listOf?_of_depth h fun s hs h => back s h (hf s hs)
    rw [Stmt.ofJson?]
    cases s
    all_goals
      -- the tag selects the form
      rw [Stmt.toJson, Json.form?_tagged_bind (by simp)]
      dsimp only
    case list body span =>
      have hbody := backs body (Json.depth_le_of_tagged h "body" (by simp)) hfinite
      simp [hbody]
    case bodyList body span =>
      have hbody := backs body (Json.depth_le_of_tagged h "body" (by simp)) hfinite
      simp [hbody]
    case expr e span => simp [(Expr.readsBack hfinite).read_write]
    case print args span => simp [Expr.listOf?_toJsonList hfinite]
    case event name args span => simp [Json.str?, Expr.listOf?_toJsonList hfinite]
    case cond test thenBody elseBody span =>
      rw [Stmt.toJson] at h
      rw [Stmt.toJsonOption_eq] at h ⊢
      rw [Stmt.doubles, Stmt.doublesOption_eq, Double.allFinite_append, Double.allFinite_append,
        Double.allFinite_flatMap] at hfinite
      obtain ⟨⟨htest, hthen⟩, helse⟩ := hfinite
      have hdepth : thenBody.toJson.depth ≤ d := Json.depth_le_of_tagged h "then_s" (by simp)
      have hback : ∀ s ∈ elseBody, ReadsBack (Stmt.ofJson? (d + 1) true) Stmt.toJson s :=
        fun s hs => back s (Json.depth_le_of_tagged h "else_s" (by simpa using .inl ⟨s, hs, rfl⟩))
          (helse s (by simpa using hs))
      simp [(Expr.readsBack htest).read_write, ih thenBody hdepth hthen,
        Json.readOption_map hback]
    case «while» test body span =>
      rw [Stmt.toJson] at h
      obtain ⟨htest, hbody⟩ := (Double.allFinite_append ..).mp hfinite
      have hdepth : body.toJson.depth ≤ d := Json.depth_le_of_tagged h "body" (by simp)
      simp [(Expr.readsBack htest).read_write, ih body hdepth hbody]
    case «for» vars valueVar iterable body span =>
      rw [Stmt.toJson] at h
      obtain ⟨hiterable, hbody⟩ := (Double.allFinite_append ..).mp hfinite
      have hdepth : body.toJson.depth ≤ d := Json.depth_le_of_tagged h "body" (by simp)
      simp [Json.listOf?_map fun v _ => LoopVar.readsBack v,
        Json.readOption_map fun v _ => LoopVar.readsBack v,
        (Expr.readsBack hiterable).read_write, ih body hdepth hbody]
    case switch e cases span =>
      rw [Stmt.toJson] at h
      rw [Stmt.toJsonCases_eq] at h ⊢
      rw [Stmt.doubles, Stmt.doublesCases_eq, Double.allFinite_append,
        Double.allFinite_flatMap] at hfinite
      obtain ⟨he, hcases⟩ := hfinite
      have hdepth : (Json.arr (cases.map Case.toJson)).depth ≤ d :=
        Json.depth_le_of_tagged h "cases" (by simp)
      simp [(Expr.readsBack he).read_write,
        Json.listOf?_of_depth hdepth fun c hc h => Case.readsBack back h (hcases c hc)]
    case add target span => simp [(Expr.readsBack hfinite).read_write]
    case delete target span => simp [(Expr.readsBack hfinite).read_write]
    case next span => simp
    case «break» span => simp
    case fallthrough span => simp
    case «return» value span =>
      rw [Stmt.doubles, Expr.doublesList_eq, Double.allFinite_flatMap] at hfinite
      have hback : ∀ e ∈ value, ReadsBack Expr.part? Expr.toJson e := fun e he =>
        Expr.readsBack (hfinite e (by simpa using he))
      simp [Json.readOption_map hback]
    case init names span =>
      simp [Json.listOf?_map fun s _ => Json.str?_readsBack s]
    case null span => simp
    case «when» test body timeout isReturn span =>
      rw [Stmt.toJson] at h
      rw [Stmt.toJsonTimeout_eq] at h ⊢
      rw [Stmt.doubles, Stmt.doublesTimeout_eq, Double.allFinite_append, Double.allFinite_append,
        Double.allFinite_flatMap] at hfinite
      obtain ⟨⟨htest, hbody⟩, htimeout⟩ := hfinite
      have hdepth : body.toJson.depth ≤ d := Json.depth_le_of_tagged h "body" (by simp)
      have hback : ∀ t ∈ timeout,
          ReadsBack (Timeout.ofJson? (Stmt.ofJson? (d + 1) true)) Timeout.toJson t := fun t ht =>
        Timeout.readsBack back
          (Json.depth_le_of_tagged h "timeout" (by simpa using .inl ⟨t, ht, rfl⟩))
          (htimeout t (by simpa using ht))
      simp [(Expr.readsBack htest).read_write, ih body hdepth hbody, Json.readOption_map hback,
        Json.bool?]

/-! ## Units -/

theorem Unit.ofJson?_toJson {u : Unit} (h : u.IsFinite) : Unit.ofJson? u.toJson = some u := by
  obtain ⟨hlocals, hbody⟩ := (Double.allFinite_append ..).mp h
  have hdecls : ∀ d ∈ u.locals, ReadsBack LocalDecl.ofJson? LocalDecl.toJson d := fun d hd =>
    LocalDecl.readsBack fun l hl => by
      simp only [Double.allFinite_flatMap] at hlocals
      exact hlocals d hd l (by simpa using hl)
  have hdepth : u.body.toJson.depth ≤ u.toJson.depth :=
    Json.depth_le_of_obj (Nat.le_succ _) "body" (by simp)
  have hstmt := Stmt.ofJson?_toJson false u.body hdepth hbody
  rw [Unit.ofJson?]
  generalize u.toJson.depth = depth at hstmt ⊢
  simp [Unit.toJson, Json.str?, (UnitKind.readsBack u.kind).read_write,
    Json.readOption_map fun s _ => Json.str?_readsBack s, Json.listOf?_map hdecls, hstmt]

/-- Read a document and write it again. -/
def recode (j : Json) : Option Json := (Unit.ofJson? j).map Unit.toJson

/-- Writing a unit loses nothing, as long as its doubles are finite: it reads
back as it was. Units that were read are such. So a document that reads is
settled once it was written again, and still reads as the same unit. -/
theorem unit_reads_back :
    (∀ u : Unit, u.IsFinite → Unit.ofJson? u.toJson = some u) ∧
    ∀ (j : Json) (u : Unit), j.IsProper → Unit.ofJson? j = some u →
      u.IsFinite ∧ recode j = some u.toJson ∧ recode u.toJson = recode j ∧
      Unit.ofJson? u.toJson = Unit.ofJson? j := by
  refine ⟨fun u hu => Unit.ofJson?_toJson hu, fun j u hj hread => ?_⟩
  have hfinite : u.IsFinite := Unit.ofJson?_finite hj hread
  have hback : Unit.ofJson? u.toJson = Unit.ofJson? j := by
    rw [Unit.ofJson?_toJson hfinite, hread]
  refine ⟨hfinite, ?_, ?_, hback⟩
  · rw [recode, hread, Option.map_some]
  · rw [recode, recode, hback]

/-- A handler that waits for half a second at most. -/
def patience : Unit where
  name := "patience"
  kind := .function (some (.table [.count] (.set [.string])))
  file? := some "patience.script"
  locals := [⟨"seen", .table [.count] (.set [.string]), none, ⟨1, 0, 1, 30⟩⟩]
  body := .list
    [.when (.binary .gt (.size (.name "seen")) (.const (.count 0))) .null
        (some (.mk (.const (.interval ⟨0x3fe0000000000000⟩) ⟨2, 4, 2, 9⟩) none)) false,
      .return (some (.name "seen"))]

/-- Members in another order, one of them unknown, and a double written as an
integer. The nodes below the body are arrays, and told by number. -/
def threeDocument : Json :=
  .obj [("note", .null), ("body", .tagged "Return"
    [("value", .arr [.int 0, .arr [.int 3, .int 3]])]), ("name", .str "three")]

theorem unit_reads_back_in_use :
    Unit.ofJson? patience.toJson = some patience ∧
    ∃ u, Unit.ofJson? threeDocument = some u ∧ u.IsFinite ∧ recode threeDocument = some u.toJson ∧
      recode u.toJson = recode threeDocument := by
  obtain ⟨hwrite, hread⟩ := unit_reads_back
  refine ⟨hwrite patience ?_, ?_⟩
  · simp [Unit.IsFinite, Unit.doubles, patience, Stmt.doubles, Stmt.doublesList,
      Stmt.doublesTimeout, Stmt.doublesOption, Expr.doubles, Expr.doublesList, Lit.doubles]
    decide
  · have hthree : Unit.ofJson? threeDocument = some ⟨"three", .toplevel, none, [],
        .return (some (.const (.double (Double.ofInt 3))))⟩ := rfl
    have hproper : threeDocument.IsProper := by
      simp [threeDocument, Json.IsProper, Json.ProperItems, Json.ProperMembers, Json.tagged]
      decide
    obtain ⟨hfinite, hrecode, hsettled, -⟩ := hread _ _ hproper hthree
    exact ⟨_, hthree, hfinite, hrecode, hsettled⟩

end Doc

end Vigil
