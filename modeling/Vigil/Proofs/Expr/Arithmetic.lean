import Vigil.Proofs.Expr.Comparison

/-!
# Vigil.Proofs.Expr.Arithmetic — ints and counts wrap

Arithmetic of two integral values is that of the integers, reduced to one word:
two counts give an unsigned word, any other pair a signed one, the counts in it
being read as signed words first. Nothing but a zero divisor is refused.

* `BinaryOp.onCounts_eq`, `BinaryOp.onInts_eq` — the two kinds of words.
* `BinaryOp.arithmetic_wraps` — every pair of integral values, with the type of
  the result.
-/

namespace Vigil

/-- What an unsigned word keeps of a number. -/
def Word.unsigned (x : Int) : Int := x % (maxUnsigned + 1)

namespace Word

theorem unsigned_toNat (c : UInt64) : unsigned c.toNat = c.toNat := by
  have := c.toNat_lt
  unfold unsigned maxUnsigned
  omega

theorem signed_unsigned (x : Int) : signed (unsigned x) = x.bmod 0x10000000000000000 := by
  rw [Int.bmod_def]
  unfold signed unsigned maxSigned maxUnsigned
  split <;> split <;> omega

end Word

namespace Value

/-- What is kept of a number in the result of two integral values. -/
def reduced (a b : Value) (z : Int) : Int :=
  if a.isCount && b.isCount then Word.unsigned z else Word.signed (Word.unsigned z)

theorem eq_count {a : Value} (h : a.isCount = true) : ∃ c, a = .count c := by
  cases a with
  | count c => exact ⟨c, rfl⟩
  | _ => cases h

/-- Every integral value has a signed reading, which is zero only for zero. -/
theorem int?_of_number? {a : Value} {x : Int} (ha : a.number? = some x) :
    ∃ i, a.int? = some i ∧ i.toInt = Word.signed x ∧ (i = 0 ↔ x = 0) := by
  cases a with
  | int i =>
    cases ha
    exact ⟨i, rfl, (Word.signed_of_le (Word.toInt_le i)).symm, by rw [← Int64.toInt_inj]; rfl⟩
  | count c =>
    cases ha
    refine ⟨c.toInt64, rfl, Word.toInt_toInt64 c, ?_⟩
    have := c.toNat_lt
    rw [← Int64.toInt_inj, Word.toInt_toInt64, Word.signed, Word.maxSigned, Word.maxUnsigned]
    simp only [Int64.toInt_zero]
    split <;> omega
  | _ => cases ha

/-- The type of the result is known from the types of the operands. -/
theorem promote?_of_number? (heap : Heap) {a b : Value} {x y : Int} (ha : a.number? = some x)
    (hb : b.number? = some y) :
    Ty.promote? (heap.typeOf a) (heap.typeOf b) =
      some (if a.isCount && b.isCount then .count else .int) := by
  cases a <;> cases ha <;> cases b <;> cases hb <;> rfl

end Value

namespace BinaryOp

variable {op : BinaryOp}

def isArithmetic : BinaryOp → Bool
  | .add | .sub | .mul | .div | .mod => true
  | _ => false

/-- The result in the integers: a quotient is cut off toward zero, a remainder
has the sign of the dividend. -/
def exact : BinaryOp → Int → Int → Int
  | .add, x, y => x + y
  | .sub, x, y => x - y
  | .mul, x, y => x * y
  | .div, x, y => x.tdiv y
  | .mod, x, y => x.tmod y
  | _, _, _ => 0

/-- The operator divides, and by zero. -/
def DividesByZero (op : BinaryOp) (y : Int) : Prop := (op = .div ∨ op = .mod) ∧ y = 0

theorem onCounts_eq (hop : op.isArithmetic = true) {c d : UInt64}
    (hd : op = .div ∨ op = .mod → d ≠ 0) :
    ∃ e, op.onCounts c d = some (.ok e) ∧
      e.toNat = Word.unsigned (op.exact c.toNat d.toNat) := by
  cases op with
  | add => exact ⟨c + d, rfl, by simp [exact, Word.unsigned, Word.maxUnsigned]⟩
  | sub =>
    refine ⟨c - d, rfl, ?_⟩
    have := d.toNat_lt
    rw [UInt64.toNat_sub, exact, Word.unsigned, Word.maxUnsigned]
    omega
  | mul => exact ⟨c * d, rfl, by simp [exact, Word.unsigned, Word.maxUnsigned]⟩
  | div =>
    refine ⟨c / d, by rw [onCounts, if_neg (hd (.inl rfl))]; rfl, ?_⟩
    rw [exact, ← Int.ofNat_tdiv, ← UInt64.toNat_div, Word.unsigned_toNat]
  | mod =>
    refine ⟨c % d, by rw [onCounts, if_neg (hd (.inr rfl))]; rfl, ?_⟩
    rw [exact, ← Int.ofNat_tmod, ← UInt64.toNat_mod, Word.unsigned_toNat]
  | _ => cases hop

theorem onInts_eq (hop : op.isArithmetic = true) {i j : Int64}
    (hj : op = .div ∨ op = .mod → j ≠ 0) :
    ∃ k, op.onInts i j = some (.ok k) ∧
      k.toInt = Word.signed (Word.unsigned (op.exact i.toInt j.toInt)) := by
  rw [Word.signed_unsigned]
  cases op with
  | add => exact ⟨i + j, rfl, Int64.toInt_add i j⟩
  | sub => exact ⟨i - j, rfl, Int64.toInt_sub i j⟩
  | mul => exact ⟨i * j, rfl, Int64.toInt_mul i j⟩
  | div => exact ⟨i / j, by rw [onInts, if_neg (hj (.inl rfl))]; rfl, Int64.toInt_div i j⟩
  | mod =>
    -- a remainder is a signed word already
    refine ⟨i % j, by rw [onInts, if_neg (hj (.inr rfl))]; rfl, ?_⟩
    rw [exact, ← Int64.toInt_mod, Int64.toInt_bmod]
  | _ => cases hop

theorem onCounts_zero (hop : op = .div ∨ op = .mod) (c : UInt64) :
    op.onCounts c 0 = some (.error .divisionByZero) := by
  rcases hop with rfl | rfl <;> rfl

theorem onInts_zero (hop : op = .div ∨ op = .mod) (i : Int64) :
    op.onInts i 0 = some (.error .divisionByZero) := by
  rcases hop with rfl | rfl <;> rfl

theorem apply_counts (heap : Heap) (hop : op.isArithmetic = true) (c d : UInt64) :
    op.apply heap (.count c) (.count d) =
      settle (.typeMismatch (.operands .count op .count)) .count (op.onCounts c d) := by
  cases op <;> first | rfl | cases hop

theorem apply_ints (heap : Heap) (hop : op.isArithmetic = true) {a b : Value} {i j : Int64}
    (hboth : (a.isCount && b.isCount) = false) (ha : a.int? = some i) (hb : b.int? = some j) :
    op.apply heap a b = settle (.typeMismatch (.operands (heap.typeOf a) op (heap.typeOf b)))
      .int (op.onInts i j) := by
  have hcmp : op.isComparison = false := by cases op <;> first | rfl | cases hop
  unfold apply
  dsimp only
  rw [hcmp]
  cases a <;> cases ha <;> cases b <;> cases hb <;> first | rfl | cases hboth

/-- Arithmetic on ints and counts is total and exact up to wrapping: it fails
only for a zero divisor, and otherwise returns the exact result of the two
readings, reduced to an unsigned word for two counts and to a signed one for any
other pair. The type of the result is the one known from the operands' types. -/
theorem arithmetic_wraps (heap : Heap) {op : BinaryOp} (hop : op.isArithmetic = true)
    {a b : Value} {x y : Int} (ha : a.number? = some x) (hb : b.number? = some y) :
    (op.DividesByZero y → op.apply heap a b = .error (.fault .divisionByZero)) ∧
    (¬ op.DividesByZero y → ∃ v, op.apply heap a b = .ok v ∧
      v.number? = some (a.reduced b (op.exact (a.readings b x y).1 (a.readings b x y).2)) ∧
      Ty.promote? (heap.typeOf a) (heap.typeOf b) = some (heap.typeOf v)) := by
  rw [Value.promote?_of_number? heap ha hb]
  cases hboth : a.isCount && b.isCount with
  | true =>
    obtain ⟨⟨c, rfl⟩, d, rfl⟩ := (Bool.and_eq_true _ _ ▸ hboth).imp Value.eq_count Value.eq_count
    cases ha
    cases hb
    rw [apply_counts heap hop]
    constructor
    · rintro ⟨hdiv, hy0⟩
      have hd : d = 0 := UInt64.toNat_inj.mp (Int.ofNat.inj hy0)
      rw [hd, onCounts_zero hdiv]
      rfl
    · intro hn
      obtain ⟨e, he, hnum⟩ := onCounts_eq hop (c := c) (d := d) fun hdiv h0 => hn ⟨hdiv, h0 ▸ rfl⟩
      exact ⟨.count e, by rw [he]; rfl, congrArg some hnum, rfl⟩
  | false =>
    obtain ⟨i, hi, hx, -⟩ := Value.int?_of_number? ha
    obtain ⟨j, hj, hy, hzero⟩ := Value.int?_of_number? hb
    rw [apply_ints heap hop hboth hi hj, Value.readings_of_not_both hboth, Value.reduced, hboth,
      ← hx, ← hy]
    constructor
    · rintro ⟨hdiv, hy0⟩
      rw [hzero.mpr hy0, onInts_zero hdiv]
      rfl
    · intro hn
      obtain ⟨k, hk, hnum⟩ := onInts_eq hop (i := i) (j := j) fun hdiv h0 => hn ⟨hdiv, hzero.mp h0⟩
      exact ⟨.int k, by rw [hk]; rfl, congrArg some hnum, rfl⟩

/-- The corners of both kinds of words: the least int by `-1`, the largest count
read as `-1`, and a zero divisor. -/
theorem arithmetic_wraps_corners :
    (∃ v, BinaryOp.div.apply .empty (.int (-0x8000000000000000)) (.int (-1)) = .ok v ∧
      v.number? = some (-0x8000000000000000) ∧ Ty.promote? .int .int = some (Heap.empty.typeOf v)) ∧
    (∃ v, BinaryOp.div.apply .empty (.int (-7)) (.count 0xffffffffffffffff) = .ok v ∧
      v.number? = some 7 ∧ Ty.promote? .int .count = some (Heap.empty.typeOf v)) ∧
    BinaryOp.mod.apply .empty (.int (-7)) (.count 0) = .error (.fault .divisionByZero) := by
  have hleast := arithmetic_wraps .empty (a := .int (-0x8000000000000000)) (b := .int (-1))
    (show div.isArithmetic = true from rfl) rfl rfl
  have hlargest := arithmetic_wraps .empty (a := .int (-7)) (b := .count 0xffffffffffffffff)
    (show div.isArithmetic = true from rfl) rfl rfl
  have hzero := arithmetic_wraps .empty (a := .int (-7)) (b := .count 0)
    (show mod.isArithmetic = true from rfl) rfl rfl
  exact ⟨hleast.2 (by rintro ⟨-, h⟩; cases h), hlargest.2 (by rintro ⟨-, h⟩; cases h),
    hzero.1 ⟨.inr rfl, rfl⟩⟩

end BinaryOp

end Vigil
