import Vigil.Proofs.Exec.Collections
import Vigil.Proofs.Flow.Traces

/-!
# Vigil.Proofs.Flow.Visits — what loops over vectors and strings visit

A loop over a vector looks at one position after the other, and at the vector
anew each time. Whatever the body does to the vector, the positions it is entered
for ascend, and each of them is filled when its turn comes. If the rounds leave
the vector as it is, they are the filled positions (`Vec.filledFrom`), all of
them unless a round broke, returned or failed.

A loop over a string goes through the bytes the string had when the loop began.
-/

namespace Vigil

open Exec (Keeps)
open Sequence (Trace Round Conclusion)
open Relation (ReflTransGen)

variable {s : Stop} {i : Nat} {σ ι : Type} {w w' : World} {v : Value}

/-- The filled positions from `i` on. -/
def Vec.filledFrom (x : Vec) (i : Nat) : List Nat :=
  (List.range' i (x.size - i)).filter fun j => (x.lookup j).isSome

/-- All filled positions. -/
def Vec.filled (x : Vec) : List Nat := x.filledFrom 0

namespace Vec

variable {x : Vec} {i : Nat}

theorem lt_size_of_lookup (h : (x.lookup i).isSome) : i < x.size := by
  by_contra hge
  have hnone : x.lookup i = none := by
    rw [lookup, Slots.get, Array.getElem?_eq_none (Nat.le_of_not_lt hge)]
    rfl
  rw [hnone] at h
  cases h

theorem filledFrom_of_size_le (h : x.size ≤ i) : x.filledFrom i = [] := by
  rw [filledFrom, Nat.sub_eq_zero_of_le h]
  rfl

/-- A position is either filled and comes first, or is passed over. -/
theorem filledFrom_eq (x : Vec) (i : Nat) : x.filledFrom i =
    if (x.lookup i).isSome then i :: x.filledFrom (i + 1) else x.filledFrom (i + 1) := by
  rcases Nat.lt_or_ge i x.size with hlt | hge
  · obtain ⟨k, hk⟩ : ∃ k, x.size - i = k + 1 := ⟨x.size - (i + 1), by omega⟩
    have hrest : x.size - (i + 1) = k := by omega
    rw [filledFrom, filledFrom, hk, hrest, List.range'_succ, List.filter_cons]
  · rw [filledFrom_of_size_le hge, filledFrom_of_size_le (Nat.le_succ_of_le hge), if_neg]
    exact fun hfilled => absurd (lt_size_of_lookup hfilled) (Nat.not_lt.mpr hge)

theorem lt_size_of_mem_filledFrom {j : Nat} (h : j ∈ x.filledFrom i) : j < x.size :=
  lt_size_of_lookup (List.mem_filter.mp h).2

end Vec

/-! ## The bound position -/

/-- A position within the limits of a vector is named by the value that is bound
for it, whether it is stored as it is or as a signed number. -/
theorem Exec.vectorIndex_position {ty : Ty} (hi : i < Slots.maxSize) (hty : ty ≠ .double) :
    Exec.vectorIndex ((Value.count (.ofNat i)).coerce ty) = pure i := by
  have hsmall : Slots.maxSize < 9223372036854775808 := by decide
  have hcount : (UInt64.ofNat i).toNat = i :=
    UInt64.toNat_ofNat_of_lt' (by simp only [UInt64.size]; omega)
  have hint : (UInt64.ofNat i).toInt64.toInt = i := by
    rw [UInt64.toInt64_ofNat', Int64.toInt_ofNat_of_lt (by omega)]
  cases ty with
  | double => exact absurd rfl hty
  | int =>
    change (if 0 ≤ (UInt64.ofNat i).toInt64.toInt then _ else _) = _
    rw [hint, if_pos (Int.natCast_nonneg i), Int.toNat_natCast]
  | _ =>
    change pure (UInt64.ofNat i).toNat = _
    rw [hcount]

/-! ## Loops over vectors -/

namespace Stmt

variable {fuel : Nat} {f : FrameRef} {w w' w₁ : World} {r : VecRef} {bind : Value → Exec Unit}
  {body : Exec Outcome}

/-- The position that comes next is the first filled one. -/
theorem vectorOffer_some {b i x : Nat} {p : Nat × Nat}
    (h : (vectorOffer r bind b i).runFrom w = (.ok (some (x, p)), w₁)) :
    (w.heap.vec r).filledFrom i = x :: (w.heap.vec r).filledFrom (x + 1) ∧
      (bind (.count (.ofNat x))).runFrom w = (.ok (), w₁) ∧ i ≤ x ∧ p.2 = x + 1 ∧
      p.1 + p.2 = b + i := by
  induction b generalizing i with
  | zero => cases h
  | succ b ih =>
    rw [runFrom_vectorOffer_succ] at h
    rw [Vec.filledFrom_eq]
    split at h
    · cases h
    · split at h
      · rename_i hhole
        obtain ⟨hfilled, hbind, hle, hnext, hbudget⟩ := ih h
        rw [Option.isNone_iff_eq_none.mp hhole]
        exact ⟨hfilled, hbind, Nat.le_of_succ_le hle, hnext, hbudget.trans (by omega)⟩
      · rename_i hfilled
        rw [Option.isNone_iff_eq_none, ← ne_eq, ← Option.isSome_iff_ne_none] at hfilled
        rw [if_pos hfilled]
        obtain ⟨⟨⟩, w₂, hbind, hrun⟩ := Exec.bind_ok h
        cases hrun
        exact ⟨rfl, hbind, Nat.le_refl _, rfl, by dsimp only; omega⟩

/-- There is no further one once the end is passed. -/
theorem vectorOffer_none {b i : Nat}
    (h : (vectorOffer r bind b i).runFrom w = (.ok none, w₁)) :
    (w.heap.vec r).filledFrom i = [] := by
  induction b generalizing i with
  | zero => cases h
  | succ b ih =>
    rw [runFrom_vectorOffer_succ] at h
    split at h
    · rename_i hend
      exact Vec.filledFrom_of_size_le (Nat.le_of_lt hend)
    · split at h
      · rename_i hhole
        rw [Vec.filledFrom_eq, Option.isNone_iff_eq_none.mp hhole]
        exact ih h
      · obtain ⟨⟨⟩, w₂, -, hrun⟩ := Exec.bind_ok h
        cases hrun

/-- The search for it breaks off when the budget does not suffice for the
positions that are left, or when it cannot be bound. -/
theorem vectorOffer_error {b i : Nat} (h : (vectorOffer r bind b i).runFrom w = (.error s, w₁)) :
    (s = .exhausted ∧ (i ≤ (w.heap.vec r).size + 1 → b + i ≤ (w.heap.vec r).size + 1)) ∨
      ∃ v, (bind v).runFrom w = (.error s, w₁) := by
  induction b generalizing i with
  | zero =>
    cases h
    exact .inl ⟨rfl, fun hi => (Nat.zero_add i).trans_le hi⟩
  | succ b ih =>
    rw [runFrom_vectorOffer_succ] at h
    split at h
    · cases h
    · rename_i hin
      split at h
      · refine (ih h).imp_left fun hs => ⟨hs.1, fun _ => ?_⟩
        have hbudget := hs.2 (by omega)
        omega
      · refine .inr ⟨.count (.ofNat i), ?_⟩
        rcases hbind : (bind (.count (.ofNat i))).runFrom w with ⟨s' | ⟨⟩, w₂⟩
        · rw [Exec.runFrom_bind_of_error hbind] at h
          cases h
          rfl
        · rw [Exec.runFrom_bind_of_ok hbind] at h
          cases h

variable {p : Nat × Nat} {ρs : List (Round Nat)} {ending : Conclusion}

/-- The visited positions ascend, from the first one that is looked at. -/
theorem vector_ascending (h : (vectorSequence r bind body).Trace p w ρs ending w') :
    (ρs.map Round.visited).Pairwise (· < ·) ∧ ∀ ρ ∈ ρs, p.2 ≤ ρ.visited := by
  induction h with
  | ranOut | brokeOff => exact ⟨.nil, fun _ hρ => absurd hρ List.not_mem_nil⟩
  | stopped hoffer =>
    obtain ⟨-, -, hle, -⟩ := vectorOffer_some hoffer
    exact ⟨List.pairwise_singleton _ _, List.forall_mem_singleton.mpr hle⟩
  | goesOn hoffer _ _ _ ih =>
    obtain ⟨-, -, hle, hnext, -⟩ := vectorOffer_some hoffer
    obtain ⟨hrest, hfrom⟩ := ih
    rw [hnext] at hfrom
    refine ⟨List.pairwise_cons.mpr ⟨?_, hrest⟩, List.forall_mem_cons.mpr ⟨hle, fun ρ hρ => ?_⟩⟩
    · intro x hx
      obtain ⟨ρ, hρ, rfl⟩ := List.mem_map.mp hx
      exact hfrom ρ hρ
    · exact Nat.le_trans hle (Nat.le_of_succ_le (hfrom ρ hρ))

/-- If the rounds leave the vector as it is, the visited positions are the first
filled ones, all of them if there was no further one; and the budget is at fault
only if it is smaller than the vector. -/
theorem vector_visited (h : (vectorSequence r bind body).Trace p w ρs ending w')
    (hbind : ∀ v, Keeps (fun w w' => w'.heap = w.heap) (bind v))
    (hsame : ∀ ρ ∈ ρs, ρ.exit.heap.vec r = ρ.entry.heap.vec r) :
    ρs.map Round.visited <+: (w.heap.vec r).filledFrom p.2 ∧
      (ending = .ranOut → ρs.map Round.visited = (w.heap.vec r).filledFrom p.2) ∧
      ∀ s, ending = .brokeOff s → (∃ v w₀, (bind v).runFrom w₀ = (.error s, w')) ∨
        (p.2 ≤ (w.heap.vec r).size + 1 → p.1 + p.2 ≤ (w.heap.vec r).size + 1) := by
  induction h with
  | ranOut hoffer =>
    exact ⟨⟨_, rfl⟩, fun _ => (vectorOffer_none hoffer).symm, fun s hs => by cases hs⟩
  | brokeOff hoffer =>
    refine ⟨⟨_, rfl⟩, (by intro hend; cases hend), fun s hs => ?_⟩
    cases hs
    rcases vectorOffer_error hoffer with ⟨-, hbudget⟩ | ⟨v, hbound⟩
    · exact .inr hbudget
    · exact .inl ⟨v, _, hbound⟩
  | stopped hoffer =>
    obtain ⟨hfilled, -⟩ := vectorOffer_some hoffer
    rw [hfilled]
    exact ⟨⟨_, rfl⟩, (by intro hend; cases hend), fun s hs => by cases hs⟩
  | @goesOn _ _ w _ ρ _ _ hoffer _ _ _ ih =>
    obtain ⟨hfilled, hbound, -, hnext, hbudget⟩ := vectorOffer_some hoffer
    have hvec : ρ.exit.heap.vec r = w.heap.vec r := by
      rw [hsame ρ List.mem_cons_self, (hbind _).run hbound]
    have hlt : ρ.visited < (w.heap.vec r).size :=
      Vec.lt_size_of_mem_filledFrom (hfilled ▸ List.mem_cons_self)
    obtain ⟨hinitial, hall, hbroke⟩ := ih fun ρ' hρ => hsame ρ' (List.mem_cons_of_mem _ hρ)
    rw [hvec, hnext] at hinitial hall
    rw [hvec] at hbroke
    rw [hfilled, List.map_cons]
    refine ⟨(List.prefix_cons_inj _).mpr hinitial, fun hend => by rw [hall hend], fun s hs => ?_⟩
    refine (hbroke s hs).imp_right fun hwithin _ => ?_
    rw [← hbudget]
    exact hwithin (by omega)

end Stmt

/-! ## Rounds and what they hold -/

/-- What a variable holds when the part is entered. -/
def Sequence.Round.holds {ι : Type} (ρ : Round ι) (f : FrameRef) (slot : Nat) : Option Value :=
  (ρ.entry.frame f).slots.get slot

/-- A loop that was stopped has a last round, which broke, returned or failed. -/
theorem Stmt.loop_stopped {offer : σ → Exec (Option (ι × σ))} {body : Exec Outcome}
    {held : List TableRef} {p : σ} {ρs : List (Round ι)}
    (h : (loopSequence offer body held).Trace p w ρs .stopped w') :
    ∃ before ρ, ρs = before ++ [ρ] ∧ ∀ out, ρ.answer = .ok out → out.flow.stops = true := by
  obtain ⟨before, ρ, rfl, hstop, -⟩ := h.last_of_stopped
  refine ⟨before, ρ, rfl, fun out hout => ?_⟩
  by_contra hon
  exact hstop ⟨out, hout, by simpa [loopSequence] using hon⟩

/-- Only a variable that has no room cannot be bound. -/
theorem Exec.writeSlot_error {f : FrameRef}
    (h : (Exec.writeSlot f i v).runFrom w = (.error s, w')) :
    s = .abort .capacity ∧ Slots.maxSize ≤ i := by
  rw [Exec.runFrom_writeSlot, Slots.set] at h
  split at h
  · cases h
  · rename_i hset
    split at hset
    · cases hset
    · split at hset
      · cases hset
      · rename_i hge
        cases hset
        cases h
        exact ⟨rfl, Nat.le_of_not_lt hge⟩

/-- An offer that could not be made ends the trace. -/
theorem Sequence.Trace.broken_offer {q : Sequence σ ι} {p : σ} {ρs : List (Round ι)}
    (h : q.Trace p w ρs (.brokeOff s) w') :
    ∃ p₀ w₀, (q.offer p₀).runFrom w₀ = (.error s, w') := by
  generalize hending : Conclusion.brokeOff s = ending at h
  induction h with
  | ranOut | stopped => cases hending
  | brokeOff hoffer =>
    cases hending
    exact ⟨_, _, hoffer⟩
  | goesOn _ _ _ _ ih => exact ih hending

/-- The rounds of a loop over a vector that begins in `w`, with the loop variable
`var` in the frame `f`. -/
structure VisitsFilled (f : FrameRef) (var : Ident) (r : VecRef) (fuel : Nat) (w : World)
    (ρs : List (Round Nat)) (ending : Conclusion) : Prop where
  ascending : (ρs.map Round.visited).Pairwise (· < ·)
  filled : ∀ ρ ∈ ρs, ((ρ.entry.heap.vec r).lookup ρ.visited).isSome = true
  bound : ∀ ρ ∈ ρs, ρ.holds f var.slot = some ((Value.count (.ofNat ρ.visited)).coerce var.ty)
  /-- The variable names the position. -/
  named : (∀ r, (w.heap.vec r).Sized) → var.ty ≠ .double →
    ∀ ρ ∈ ρs, ∃ v, ρ.holds f var.slot = some v ∧ Exec.vectorIndex v = pure ρ.visited
  unchanged : (∀ ρ ∈ ρs, ρ.exit.heap.vec r = ρ.entry.heap.vec r) →
    ρs.map Round.visited <+: (w.heap.vec r).filled ∧
      (ending = .ranOut → ρs.map Round.visited = (w.heap.vec r).filled) ∧
      ((w.heap.vec r).size + 1 < fuel → ending ≠ .brokeOff .exhausted)
  stopped : ending = .stopped →
    ∃ before ρ, ρs = before ++ [ρ] ∧ ∀ out, ρ.answer = .ok out → out.flow.stops = true
  brokeOff : ∀ s, ending = .brokeOff s →
    s = .exhausted ∨ s = .abort .capacity ∧ Slots.maxSize ≤ var.slot

/-- The rounds of a loop over a string. -/
structure VisitsBytes (f : FrameRef) (var : Ident) (bytes : Bytes) (ρs : List (Round UInt8))
    (ending : Conclusion) : Prop where
  bound : ∀ ρ ∈ ρs, ρ.holds f var.slot = some (.str [ρ.visited])
  inOrder : ρs.map Round.visited <+: bytes
  /-- What was bound concatenates to the string. -/
  completed : ending = .ranOut → ∃ pieces : List Bytes,
    ρs.map (·.holds f var.slot) = pieces.map (fun piece => some (.str piece)) ∧
      pieces.flatten = bytes
  stopped : ending = .stopped →
    ∃ before ρ, ρs = before ++ [ρ] ∧ ∀ out, ρ.answer = .ok out → out.flow.stops = true
  brokeOff : ∀ s, ending = .brokeOff s → s = .abort .capacity ∧ Slots.maxSize ≤ var.slot

namespace Stmt

variable {f : FrameRef} {w w' : World} {body : Stmt} {fuel : Nat} {ending : Conclusion}
  {bytes : Bytes} {var : Ident} {bind : Value → Exec Unit}

theorem writeSlot_moves (i : Nat) (v : Value) : Keeps (ReflTransGen (World.Step f))
    (Exec.writeSlot f i v) := Exec.Moves.of_local (.writeSlot i v)

theorem writeSlot_heap (i : Nat) (v : Value) :
    Keeps (fun w w' => w'.heap = w.heap) (Exec.writeSlot f i v) := by
  intro w
  unfold Exec.leaves
  rw [Exec.runFrom_writeSlot]
  cases (w.frame f).slots.set i v <;> rfl

theorem visitsFilled {r : VecRef} {ρs : List (Round Nat)}
    (hf : w.HasFrame f)
    (h : (vectorSequence r (fun v => Exec.writeSlot f var.slot (v.coerce var.ty))
      (body.exec fuel f)).Trace (fuel, 0) w ρs ending w') :
    VisitsFilled f var r fuel w ρs ending := by
  have hentry : ∀ ρ ∈ ρs, ((ρ.entry.heap.vec r).lookup ρ.visited).isSome = true ∧
      ρ.holds f var.slot = some ((Value.count (.ofNat ρ.visited)).coerce var.ty) := by
    intro ρ hρ
    obtain ⟨p₀, p₁, w₀, hsteps, hoffer⟩ := h.offered
      (fun p => vectorOffer_keeps r (fun v => writeSlot_moves _ _) p.1 p.2)
      (fun _ => exec_moves fuel f body) ρ hρ
    obtain ⟨hfilled, hbound, -⟩ := vectorOffer_some hoffer
    obtain ⟨hheap, hslots⟩ := Exec.writeSlot_ok hbound
    have hmem : ρ.visited ∈ (w₀.heap.vec r).filledFrom p₀.2 := hfilled ▸ List.mem_cons_self
    refine ⟨?_, ?_⟩
    · rw [hheap]
      exact (List.mem_filter.mp hmem).2
    · rw [Round.holds, hslots ((World.hasFrame_of_steps hsteps f).mpr hf), if_pos rfl]
  refine ⟨(vector_ascending h).1, fun ρ hρ => (hentry ρ hρ).1, fun ρ hρ => (hentry ρ hρ).2, ?_,
    fun hsame => ?_, ?_, ?_⟩
  · intro hsized hty ρ hρ
    obtain ⟨hfilled, hbound⟩ := hentry ρ hρ
    have hkept := ((h.keeps
      (fun p => vectorOffer_keeps r (fun v => Heap.Durable.writeSlot _ _) p.1 p.2)
      (fun _ _ => Heap.durable_sized.exec fuel f body)).1 ρ hρ).1 hsized
    have hlt := Nat.lt_of_lt_of_le (Vec.lt_size_of_lookup hfilled) (hkept r)
    exact ⟨_, hbound, Exec.vectorIndex_position hlt hty⟩
  · obtain ⟨hinitial, hall, hbroke⟩ := vector_visited h (fun v => writeSlot_heap _ _) hsame
    refine ⟨hinitial, hall, fun hfuel hend => ?_⟩
    rcases hbroke _ hend with ⟨v, w₀, hbind⟩ | hbudget
    · cases (Exec.writeSlot_error hbind).1
    · have hle := hbudget (Nat.zero_le _)
      exact absurd hle (Nat.not_le.mpr hfuel)
  · rintro rfl
    exact loop_stopped h
  · rintro s rfl
    obtain ⟨p₀, w₀, hoffer⟩ := h.broken_offer
    rcases vectorOffer_error hoffer with ⟨hs, -⟩ | ⟨v, hbind⟩
    · exact .inl hs
    · exact .inr (Exec.writeSlot_error hbind)

theorem stringOffer_some {bytes' : Bytes} {b : UInt8}
    (h : (stringOffer bind bytes).runFrom w = (.ok (some (b, bytes')), w')) :
    (bind (.str [b])).runFrom w = (.ok (), w') := by
  cases bytes with
  | nil => cases h
  | cons b rest =>
    obtain ⟨⟨⟩, w₁, hbind, hrun⟩ := Exec.bind_ok h
    cases hrun
    exact hbind

theorem stringOffer_error (h : (stringOffer bind bytes).runFrom w = (.error s, w')) :
    ∃ v, (bind v).runFrom w = (.error s, w') := by
  cases bytes with
  | nil => cases h
  | cons b rest =>
    refine ⟨.str [b], ?_⟩
    rcases hbind : (bind (.str [b])).runFrom w with ⟨s' | ⟨⟩, w₂⟩
    · rw [stringOffer, Exec.runFrom_bind_of_error hbind] at h
      cases h
      rfl
    · rw [stringOffer, Exec.runFrom_bind_of_ok hbind] at h
      cases h

theorem visitsBytes {ρs : List (Round UInt8)}
    (hf : w.HasFrame f)
    (h : (stringSequence (Exec.writeSlot f var.slot) (body.exec fuel f)).Trace bytes w ρs ending
      w') :
    VisitsBytes f var bytes ρs ending := by
  have hbound : ∀ ρ ∈ ρs, ρ.holds f var.slot = some (.str [ρ.visited]) := by
    have hkeeps : ∀ p, Keeps (ReflTransGen (World.Step f))
        (stringOffer (Exec.writeSlot f var.slot) p) := stringOffer_keeps (writeSlot_moves _)
    intro ρ hρ
    obtain ⟨p₀, p₁, w₀, hsteps, hoffer⟩ :=
      h.offered hkeeps (fun _ => exec_moves fuel f body) ρ hρ
    obtain ⟨-, hslots⟩ := Exec.writeSlot_ok (stringOffer_some hoffer)
    rw [Round.holds, hslots ((World.hasFrame_of_steps hsteps f).mpr hf), if_pos rfl]
  refine ⟨hbound, h.visited_isPrefix string_takesHead, ?_, ?_, ?_⟩
  · rintro rfl
    refine ⟨ρs.map fun ρ => [ρ.visited], ?_, ?_⟩
    · rw [List.map_map]
      exact List.map_congr_left hbound
    · rw [← h.visited_eq_of_ranOut string_takesHead]
      clear h hbound
      induction ρs with
      | nil => rfl
      | cons ρ rest ih => exact congrArg (ρ.visited :: ·) ih
  · rintro rfl
    exact loop_stopped h
  · rintro s rfl
    obtain ⟨p₀, w₀, hoffer⟩ := h.broken_offer
    obtain ⟨v, hbind⟩ := stringOffer_error hoffer
    exact Exec.writeSlot_error hbind

/-- A loop over a vector visits filled positions in ascending order, and one over
a string its bytes. -/
theorem for_visits_in_order {w₁ : World} {i : StmtInfo} {target : Expr} {v : Value} (fuel : Nat)
    (var : Ident) (valueVar : Option Ident) (body : Stmt) (hf : w.HasFrame f)
    (htarget : (target.eval f).runFrom ((Exec.visit i).leaves w) = (.ok v, w₁)) :
    (∀ r, v = .vector r → ∃ ρs ending w',
      let q := vectorSequence r (fun v => Exec.writeSlot f var.slot (v.coerce var.ty))
        (body.exec fuel f)
      q.Trace (fuel, 0) w₁ ρs ending w' ∧
        ((Stmt.for i [var] valueVar target body).exec fuel f).runFrom w =
          ended Outcome.afterLoop (q.result .next ρs w' ending) ∧
        VisitsFilled f var r fuel w₁ ρs ending) ∧
    (∀ bytes, v = .str bytes → ∃ ρs ending w',
      let q := stringSequence (Exec.writeSlot f var.slot) (body.exec fuel f)
      q.Trace bytes w₁ ρs ending w' ∧
        ((Stmt.for i [var] valueVar target body).exec fuel f).runFrom w =
          ended Outcome.afterLoop (q.result .next ρs w' ending) ∧
        VisitsBytes f var bytes ρs ending) ∧
    ∀ P now limits w₀ (op : HostOp), World.EverIn P (.start now limits) w₀ →
      op.Executes fuel w₀ f (.for i [var] valueVar target body) w →
      ∀ r, (w₁.heap.vec r).Sized := by
  have hf₁ : w₁.HasFrame f :=
    (World.hasFrame_of_steps ((Exec.Moves.of_local (Expr.eval_local f target)).steps htarget)
      f).mpr hf
  refine ⟨?_, ?_, fun P now limits w₀ op hever hexec => ?_⟩
  · rintro r rfl
    obtain ⟨ρs, ending, w', htrace, hrun⟩ := exists_vector_trace valueVar body fuel var htarget
    exact ⟨ρs, ending, w', htrace, hrun, visitsFilled hf₁ htrace⟩
  · rintro bytes rfl
    obtain ⟨ρs, ending, w', htrace, hrun⟩ := exists_string_trace valueVar body fuel var htarget
    exact ⟨ρs, ending, w', htrace, hrun, visitsBytes hf₁ htrace⟩
  · have hsized : ∀ r, (w.heap.vec r).Sized := Heap.durable_sized.executes hever hexec
    exact (Heap.durable_sized.eval target).run htarget hsized

/-- What a loop goes over that is executed in `w`, and the world it begins in. -/
def ranges (f : FrameRef) (w : World) : Stmt → Option (Value × World)
  | .for i _ _ target _ =>
    match (target.eval f).runFrom ((Exec.visit i).leaves w) with
    | (.ok v, w₁) => some (v, w₁)
    | _ => none
  | _ => none

theorem ranges_eq_some {w₁ : World} {i : StmtInfo} {vars : List Ident} {valueVar : Option Ident}
    {target : Expr} (h : (Stmt.for i vars valueVar target body).ranges f w = some (v, w₁)) :
    (target.eval f).runFrom ((Exec.visit i).leaves w) = (.ok v, w₁) := by
  rw [ranges] at h
  split at h
  · rename_i heval
    cases h
    exact heval
  · cases h

/-- The variables in the head of a loop, and the one for values. -/
def head? : Stmt → Option (List Ident × Option Ident)
  | .for _ vars valueVar _ _ => some (vars, valueVar)
  | _ => none

/-- A sequence that reports a signal has executed something. -/
theorem ne_nil_of_signal {q : Sequence σ ι} {ρs : List (Round ι)} {out : Outcome}
    (h : (ended Outcome.afterLoop (q.result .next ρs w ending)).1 = .ok out)
    (hout : out.flow ≠ .next) : ρs ≠ [] := by
  rintro rfl
  cases ending with
  | brokeOff => cases h
  | ranOut | stopped =>
    cases h
    exact hout rfl

end Stmt

/-- A vector with elements at 1 and 3, and a loop that returns its first position. -/
def firstFilled : Doc.Unit where
  name := "first-filled"
  kind := .function none
  locals := [⟨"v", .vector .bool, none, .unknown⟩]
  body := .list
    [.expr (.assign (.index (.name "v") [.const (.count 1)]) (.const (.bool true))),
      .expr (.assign (.index (.name "v") [.const (.count 3)]) (.const (.bool true))),
      .for [⟨"i", none, .unknown⟩] none (.name "v") (.return (some (.name "i")))]

/-- The loop of `firstFilled`, executed once more after a run, visits filled
positions, and its variable names them. -/
theorem Stmt.for_visits_in_order_firstFilled :
    ∃ (i : StmtInfo) (var : Ident) (target : Expr) (body : Stmt) (w w₁ : World)
      (ρs : List (Round Nat)) (ending : Conclusion),
      Stmt.for i [var] none target body ∈ (Script.build firstFilled 0).body.preorder ∧
      (target.eval ⟨0⟩).runFrom ((Exec.visit i).leaves w) = (.ok (.vector ⟨0⟩), w₁) ∧
      (w₁.heap.vec ⟨0⟩).filled = [1, 3] ∧ (∀ r, (w₁.heap.vec r).Sized) ∧ ρs ≠ [] ∧
      VisitsFilled ⟨0⟩ var ⟨0⟩ 9 w₁ ρs ending := by
  let P : FrameRef → Stmt → Prop := fun _ _ => True
  let w₀ := ((HostOp.newFrame 2 none).perform 0).leaves (.start default default)
  let w := ((HostOp.run (Script.build firstFilled 0) ⟨0⟩).perform 9).leaves w₀
  have hloop : ∃ loop ∈ (Script.build firstFilled 0).body.preorder,
      loop.head? = some ([⟨"i", 1, .count, none⟩], none) ∧
      (loop.ranges ⟨0⟩ w).map (fun b => (b.1, (b.2.heap.vec ⟨0⟩).filled)) =
        some (.vector ⟨0⟩, [1, 3]) ∧
      ((loop.exec 9 ⟨0⟩).runFrom w).1 = .ok ⟨some (.count 1), .return⟩ := by decide +kernel
  have hframe : w.HasFrame ⟨0⟩ := by decide +kernel
  have hever : World.EverIn P (.start default default) w := .ran (Script.build firstFilled 0) 2 9
  clear_value w
  obtain ⟨loop, hmem, hhead, hranges, hanswer⟩ := hloop
  cases loop with
  | «for» i vars valueVar target body =>
    cases hhead
    obtain ⟨⟨v, w₁⟩, hrange, hv⟩ := Option.map_eq_some_iff.mp hranges
    obtain ⟨rfl, hfilled⟩ := Prod.mk.inj hv
    have htarget := ranges_eq_some hrange
    obtain ⟨hvector, -, hsized⟩ := for_visits_in_order 9 _ none body hframe htarget
    obtain ⟨ρs, ending, w', -, hrun, hvisits⟩ := hvector ⟨0⟩ rfl
    refine ⟨i, _, target, body, w, w₁, ρs, ending, hmem, htarget, hfilled,
      hsized P default default w (.run { Script.build firstFilled 0 with body := _ } ⟨0⟩) hever
        (.single .run), ?_, hvisits⟩
    rw [hrun] at hanswer
    exact ne_nil_of_signal hanswer (by decide)
  | _ => cases hhead

end Vigil
