import Vigil.Expr.Eval
import Vigil.Proofs.Typing.Safe

/-!
# Vigil.Proofs.Typing.Eval — typed expressions evaluate safely

The value of a typed expression has the expression's static type, and its
evaluation keeps the world conforming and breaks no invariant of the engine
(`Expr.eval_safe`). Operators are dealt with first, by the types of their
operands; then the three mutually recursive functions of the evaluator, by
the form of the expression.
-/

namespace Vigil

variable {h : Heap} {v : Value} {ty : Ty} {span : Span}

/-! ## Operators -/

/-- The result of a unary operator has the type its check gave. -/
theorem UnaryOp.hasType_apply {op : UnaryOp} {u : Value} {a : Ty} (hv : h.HasType v a)
    (ha : a.clean = true) (hop : Verdict.unary op a span = .ok ty) (hu : op.apply h v = .ok u) :
    h.HasType u ty := by
  unfold Verdict.unary at hop
  split at hop <;> cases hop
  · cases ha
  · cases hu
    exact ⟨trivial, trivial, .inr rfl⟩
  all_goals
    have hkind := hv.ofKind rfl
    cases v <;> cases hkind
    cases op <;> first | contradiction | cases hu
    all_goals exact ⟨trivial, trivial, .inr rfl⟩

theorem Stop.OfOperator.not_internal {s : Stop} (h : s.OfOperator) : ¬ s.Internal := by
  unfold OfOperator at h
  split at h
  · exact id
  · exact id
  · exact id
  · exact h.elim

namespace BinaryOp

variable {α : Type} {h : Heap} {op : BinaryOp} {u : Value}

theorem exists_of_settle {m : Fault} {f : α → Value} {r : Option (Except Fault α)}
    (hr : settle m f r = .ok u) : ∃ x, u = f x := by
  unfold settle at hr
  split at hr <;> cases hr
  exact ⟨_, rfl⟩

theorem exists_of_inRange {f : α → Value} {r : Option α} (hr : inRange f r = .ok u) :
    ∃ x, u = f x := by
  unfold inRange at hr
  split at hr <;> cases hr
  exact ⟨_, rfl⟩

/-- The result of arithmetic has the type its check gave. -/
theorem hasType_of_arithmetic {a b : Value} {ta tb ty : Ty} (ha : h.HasType a ta)
    (hb : h.HasType b tb) (hty : Verdict.arithmetic? op ta tb = some ty)
    (hcmp : op.isComparison = false) (hu : op.apply h a b = .ok u) : h.HasType u ty := by
  unfold Verdict.arithmetic? at hty
  split at hty
  · -- numbers: the wider type decides
    rename_i hnum
    simp only [Bool.and_eq_true] at hnum
    cases ta <;> cases hnum.1 <;> cases tb <;> cases hnum.2 <;> cases hty <;>
      (have hka := ha.ofKind rfl
       have hkb := hb.ofKind rfl
       cases a <;> cases hka
       cases b <;> cases hkb
       simp only [apply, hcmp, Bool.false_eq_true, if_false, Value.double?, Value.int?] at hu
       obtain ⟨x, rfl⟩ := exists_of_settle hu
       exact ⟨trivial, trivial, .inr rfl⟩)
  · -- times and intervals; a number scales an interval
    split at hty
    case h_7 =>
      cases hty
      have hka := ha.ofKind rfl
      have hkb := hb.ofKind rfl
      cases a <;> cases hka
      cases b <;> cases hkb
      simp only [apply, hcmp, Bool.false_eq_true, if_false] at hu
      split at hu <;> cases hu
      exact ⟨trivial, trivial, .inr rfl⟩
    case h_8 | h_9 =>
      split at hty <;> cases hty
      rename_i hnum
      have hka := ha.ofKind rfl
      cases a <;> cases hka
      rcases hb.cases_of_isNumeric hnum with ⟨_, rfl⟩ | ⟨_, rfl⟩ | ⟨_, rfl⟩ <;>
        (simp only [apply, hcmp, Bool.false_eq_true, if_false, Value.double?] at hu
         obtain ⟨x, rfl⟩ := exists_of_settle hu
         exact ⟨trivial, trivial, .inr rfl⟩)
    case h_10 =>
      split at hty <;> cases hty
      rename_i hnum
      have hkb := hb.ofKind rfl
      cases b <;> cases hkb
      rcases ha.cases_of_isNumeric hnum with ⟨_, rfl⟩ | ⟨_, rfl⟩ | ⟨_, rfl⟩ <;>
        (simp only [apply, hcmp, Bool.false_eq_true, if_false, Value.double?] at hu
         obtain ⟨x, rfl⟩ := exists_of_settle hu
         exact ⟨trivial, trivial, .inr rfl⟩)
    case h_11 => cases hty
    all_goals
      cases hty
      have hka := ha.ofKind rfl
      have hkb := hb.ofKind rfl
      cases a <;> cases hka
      cases b <;> cases hkb
      simp only [apply, hcmp, Bool.false_eq_true, if_false] at hu
      obtain ⟨x, rfl⟩ := exists_of_inRange hu
      exact ⟨trivial, trivial, .inr rfl⟩

/-- The result of a binary operator has the type its check gave. -/
theorem hasType_apply {a b : Value} {ta tb ty : Ty} (ha : h.HasType a ta) (hb : h.HasType b tb)
    (hca : ta.clean = true) (hcb : tb.clean = true) (hlog : op.isLogical = false)
    (hop : Verdict.binary op ta tb span = .ok ty) (hu : op.apply h a b = .ok u) :
    h.HasType u ty := by
  unfold Verdict.binary at hop
  simp only [Ty.isError_of_clean hca, Ty.isError_of_clean hcb, Bool.or_self, hlog,
    Bool.false_eq_true, if_false] at hop
  split at hop
  · -- a comparison answers a boolean
    rename_i hcmp
    split at hop <;> cases hop
    simp only [apply, hcmp, if_true] at hu
    split at hu <;> cases hu
    exact ⟨trivial, trivial, .inr rfl⟩
  · rename_i hcmp
    split at hop
    · rename_i hty
      split at hop <;> cases hop
      exact hasType_of_arithmetic ha hb hty (by simpa using hcmp) hu
    · cases hop

theorem hasType_of_logical {ta tb ty : Ty} (hca : ta.clean = true) (hcb : tb.clean = true)
    (hlog : op.isLogical = true) (hop : Verdict.binary op ta tb span = .ok ty) (b : Bool) :
    h.HasType (.bool b) ty := by
  unfold Verdict.binary at hop
  simp only [Ty.isError_of_clean hca, Ty.isError_of_clean hcb, Bool.or_self, hlog,
    Bool.false_eq_true, if_false, if_true] at hop
  split at hop <;> cases hop
  exact ⟨trivial, trivial, .inr rfl⟩

end BinaryOp

/-! ## Expressions -/

namespace Heap

/-- A value without a collection in it has its type in every heap. -/
theorem HasType.of_empty (hv : Heap.empty.HasType v ty) : h.HasType v ty :=
  hv.mono ⟨Nat.zero_le _, Nat.zero_le _, fun _ hr => absurd hr (Nat.not_lt_zero _),
    fun _ hr => absurd hr (Nat.not_lt_zero _)⟩

end Heap

namespace Expr

variable {Γ : FrameRef → Layout} {f : FrameRef} {w : World} {vals : List Value} {c : Value}
  {target : Ty} {index : List Expr} {e : Expr}

theorem eval_binary_of_not_logical {op : BinaryOp} {l r : Expr} {i : ExprInfo}
    (h : ¬ op.isLogical = true) : eval f (.binary op l r i) = (do
      let a ← eval f l
      let b ← eval f r
      Exec.ofStop (op.apply (← Exec.heap) a b)) := by
  cases op <;> first | exact absurd rfl h | (rw [eval] <;> nofun)

/-- Element access after container and index were evaluated. -/
theorem element_safe (hw : w.Conforms Γ) (hc : w.heap.HasType c target)
    (hclean : target.clean = true) (hlen : vals.length = index.length)
    (hindex : Verdict.index target index span = .ok ty) :
    Exec.Safe Γ w (Exec.element c vals) fun v w' => w'.heap.HasType v ty := by
  obtain ⟨types, rfl, -⟩ | ⟨types, rfl, -⟩ | ⟨rfl, i, rfl⟩ := Verdict.index_ok hclean hindex
  · obtain ⟨r, rfl, -, hty⟩ := hc.exists_table
    exact Exec.element_table_safe hw (Table.eq_of_ty_eq_table hty).2
  · obtain ⟨r, rfl, -, hty⟩ := hc.exists_set
    exact Exec.element_set_safe hw (Table.eq_of_ty_eq_set hty).2
  · -- a vector index has one component, so it is never empty
    obtain ⟨r, rfl, hr, helem⟩ := hc.exists_vector
    exact Exec.element_vector_safe hw hr helem (by rintro rfl; cases hlen)

theorem storeElement_safe (hw : w.Conforms Γ) (hc : w.heap.HasType c target)
    (hclean : target.clean = true) (hlen : vals.length = index.length)
    (hindex : Verdict.index target index span = .ok ty) (hv : w.heap.HasType v ty) :
    Exec.Safe Γ w (Exec.storeElement c vals v) fun _ _ => True := by
  obtain ⟨types, rfl, -⟩ | ⟨types, -, rfl, -⟩ | ⟨rfl, i, rfl⟩ := Verdict.index_ok hclean hindex
  · obtain ⟨r, rfl, -, hty⟩ := hc.exists_table
    exact Exec.storeElement_table_safe hw (Table.eq_of_ty_eq_table hty).2 hv
  · -- an element of a set is void, and no value is
    exact hv.ne_void.elim
  · obtain ⟨r, rfl, hr, helem⟩ := hc.exists_vector
    exact Exec.storeElement_vector_safe hw hr helem (by rintro rfl; cases hlen) hv

theorem length_of_hasTypes {es : List Expr} (hv : h.HasTypes vals (es.map Expr.ty)) :
    vals.length = es.length := by
  simpa using hv.length_eq

mutual

/-- A typed expression evaluates to a value of its static type. -/
theorem eval_safe : ∀ (e : Expr) {w : World}, w.Conforms Γ → e.Typed (Γ f) →
    Exec.Safe Γ w (e.eval f) fun v w' => w'.heap.HasType v e.ty
  | .const v i, w, hw, he => .pure hw (Heap.HasType.of_empty he.1)
  | .name id i, w, hw, he => by
    obtain ⟨hid, hty⟩ := he
    rw [Expr.ty, Expr.info, ← hty, eval]
    split
    · rename_i v hv
      exact .pure hw (Heap.HasType.of_empty ((Γ f).const id hid v hv))
    · exact Exec.readSlot_safe hw hid id.name
  | .unary op e i, w, hw, he => by
    refine .bind (eval_safe e hw he.1) fun v w' hev hv => .heap_bind ?_
    exact Exec.ofStop_safe hev.conforms (fun u hu => UnaryOp.hasType_apply hv he.1.clean he.2 hu)
      fun s hs => (UnaryOp.stop_of_apply hs).not_internal
  | .binary op l r i, w, hw, he => by
    obtain ⟨hl, hr, hop⟩ := he
    -- `and` and `or` may skip their right operand; all others need both values
    by_cases hlog : op.isLogical
    · have hbool : ∀ (w' : World) (b : Bool), w'.heap.HasType (.bool b) i.ty :=
        fun _ => BinaryOp.hasType_of_logical hl.clean hr.clean hlog hop
      cases op <;> cases hlog
      all_goals
        rw [eval]
        refine .bind (eval_safe l hw hl) fun a w' hev _ => ?_
        split
      · exact .pure hev.conforms (hbool ..)
      · exact .bind (eval_safe r hev.conforms hr) fun b w'' hev' _ =>
          .pure hev'.conforms (hbool ..)
      · exact .bind (eval_safe r hev.conforms hr) fun b w'' hev' _ =>
          .pure hev'.conforms (hbool ..)
      · exact .pure hev.conforms (hbool ..)
    · rw [eval_binary_of_not_logical hlog]
      refine .bind (eval_safe l hw hl) fun a w' hev ha => ?_
      refine .bind (eval_safe r hev.conforms hr) fun b w'' hev' hb => .heap_bind ?_
      refine Exec.ofStop_safe hev'.conforms (fun u hu => ?_)
        fun s hs => (BinaryOp.stop_of_apply hs).not_internal
      exact BinaryOp.hasType_apply (ha.mono hev'.grows) hb hl.clean hr.clean (by simpa using hlog)
        hop hu
  | .assign t v i, w, hw, he => by
    obtain ⟨ht, hv, hassign⟩ := he
    obtain ⟨hty, hcan⟩ := Verdict.assign_ok hassign
    rw [eval]
    refine .bind (eval_safe v hw hv) fun a w' hev ha => ?_
    -- the value is widened before it is stored, and the widened value is the result
    have hstored := ha.coerce hv.clean ht.clean hcan
    refine .bind (store_safe t hev.conforms ht hstored) fun _ w'' hev' _ => ?_
    exact .pure hev'.conforms (hty ▸ hstored.mono hev'.grows)
  | .index t is i, w, hw, he => by
    obtain ⟨ht, his, hindex⟩ := he
    refine .bind (eval_safe t hw ht) fun c w' hev hc => ?_
    refine .bind (evalList_safe is hev.conforms his) fun vals w'' hev' hvals => ?_
    exact element_safe hev'.conforms (hc.mono hev'.grows) ht.clean (length_of_hasTypes hvals)
      hindex
  | .member es t i, w, hw, he => by
    obtain ⟨hes, ht, hmember⟩ := he
    refine .bind (eval_safe t hw ht) fun c w' hev _ => ?_
    refine .bind (evalList_safe es hev.conforms hes) fun vals w'' hev' _ => ?_
    refine .bind (Exec.isMember_safe hev'.conforms) fun b w''' hev'' _ => ?_
    refine .pure hev''.conforms ?_
    rw [Expr.ty, Expr.info, Verdict.eq_bool_of_member hmember]
    exact ⟨trivial, trivial, .inr rfl⟩
  | .size e i, w, hw, he => by
    refine .bind (eval_safe e hw he.1) fun v w' hev hv => ?_
    exact Exec.sizeOf_safe hev.conforms hv he.1.clean he.2
  | .error _, _, _, he => he.elim

theorem evalList_safe : ∀ (es : List Expr) {w : World}, w.Conforms Γ → TypedList (Γ f) es →
    Exec.Safe Γ w (evalList f es) fun vals w' => w'.heap.HasTypes vals (es.map Expr.ty)
  | [], w, hw, _ => .pure hw .nil
  | e :: es, w, hw, he => by
    refine .bind (eval_safe e hw he.1) fun v w' hev hv => ?_
    refine .bind (evalList_safe es hev.conforms he.2) fun vals w'' hev' hvals => ?_
    exact .pure hev'.conforms (.cons (hv.mono hev'.grows) hvals)

theorem store_safe : ∀ (e : Expr) {w : World} {v : Value}, w.Conforms Γ → e.Typed (Γ f) →
    w.heap.HasType v e.ty → Exec.Safe Γ w (e.store f v) fun _ _ => True
  | .name id i, w, v, hw, he, hv => Exec.writeSlot_safe hw he.1 (he.2.symm ▸ hv)
  | .index t is i, w, v, hw, he, hv => by
    obtain ⟨ht, his, hindex⟩ := he
    refine .bind (eval_safe t hw ht) fun c w' hev hc => ?_
    refine .bind (evalList_safe is hev.conforms his) fun vals w'' hev' hvals => ?_
    exact storeElement_safe hev'.conforms (hc.mono hev'.grows) ht.clean (length_of_hasTypes hvals)
      hindex ((hv.mono hev.grows).mono hev'.grows)
  | .const _ _, _, _, hw, _, _ | .unary _ _ _, _, _, hw, _, _ | .binary _ _ _ _, _, _, hw, _, _
  | .assign _ _ _, _, _, hw, _, _ | .member _ _ _, _, _, hw, _, _ | .size _ _, _, _, hw, _, _
  | .error _, _, _, hw, _, _ => .mismatch hw

end

/-- Only an element of a set can be added. -/
theorem addTo_safe (hw : w.Conforms Γ) (he : e.Typed (Γ f)) (hadd : e.canAdd = true) :
    Exec.Safe Γ w (e.addTo f) fun _ _ => True := by
  cases e with
  | index t is i =>
    obtain ⟨ht, his, -⟩ := he
    refine .bind (eval_safe t hw ht) fun c w' hev hc => ?_
    refine .bind (evalList_safe is hev.conforms his) fun vals w'' hev' _ => ?_
    have hset : ∃ types, t.ty = .set types := by
      simp only [canAdd, Ty.isSet] at hadd
      split at hadd
      · exact ⟨_, ‹_›⟩
      · cases hadd
    obtain ⟨types, hset⟩ := hset
    rw [hset] at hc
    obtain ⟨r, rfl, -, hty⟩ := (hc.mono hev'.grows).exists_set
    exact Exec.addElement_safe hev'.conforms (Table.eq_of_ty_eq_set hty).2
  | _ => exact .mismatch hw

theorem deleteFrom_safe (hw : w.Conforms Γ) (he : e.Typed (Γ f)) :
    Exec.Safe Γ w (e.deleteFrom f) fun _ _ => True := by
  cases e with
  | index t is i =>
    obtain ⟨ht, his, hindex⟩ := he
    refine .bind (eval_safe t hw ht) fun c w' hev hc => ?_
    refine .bind (evalList_safe is hev.conforms his) fun vals w'' hev' hvals => ?_
    have hc := hc.mono hev'.grows
    have hlen := length_of_hasTypes hvals
    obtain ⟨types, hty, -⟩ | ⟨types, hty, -⟩ | ⟨hty, i, rfl⟩ := Verdict.index_ok ht.clean hindex
    · rw [hty] at hc
      obtain ⟨r, rfl, -⟩ := hc.exists_table
      exact Exec.deleteElement_table_safe hev'.conforms
    · rw [hty] at hc
      obtain ⟨r, rfl, -⟩ := hc.exists_set
      exact Exec.deleteElement_table_safe hev'.conforms
    · rw [hty] at hc
      obtain ⟨r, rfl, hr, -⟩ := hc.exists_vector
      exact Exec.deleteElement_vector_safe hev'.conforms hr (by rintro rfl; cases hlen)
  | _ => exact .mismatch hw

end Expr

end Vigil
