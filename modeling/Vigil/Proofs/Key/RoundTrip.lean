import Mathlib.Tactic.Ring
import Vigil.Key

/-!
# Vigil.Proofs.Key.RoundTrip — keys read back

A key made of a tuple whose components are of the kinds its types name reads
back as that tuple (`Key.decode_encode`), up to the one thing keys identify:
both zeros of a double give positive zero. Each component is read off the
front of whatever follows it, so the statement for one component
(`Key.readOne_component`) leaves the rest of the key open.
-/

namespace Vigil

namespace Key

/-! ## Words -/

theorem length_word : ∀ width n, (word width n).length = width
  | 0, _ => rfl
  | width + 1, n => congrArg (· + 1) (length_word width n)

theorem number_cons (b : UInt8) (bytes : Bytes) :
    number (b :: bytes) = b.toNat * 256 ^ bytes.length + number bytes := by
  have shifted : ∀ (bytes : Bytes) (n : Nat),
      bytes.foldl (fun n b => 256 * n + b.toNat) n = n * 256 ^ bytes.length + number bytes := by
    intro bytes
    induction bytes with
    | nil => simp [number]
    | cons b bytes ih =>
      intro n
      simp only [number, List.foldl_cons, List.length_cons]
      rw [ih, ih (256 * 0 + b.toNat), Nat.pow_succ]
      ring
  simp only [number, List.foldl_cons]
  rw [shifted]
  simp [number]

/-- A word holds its number modulo the numbers of that width. -/
theorem number_word : ∀ width n, number (word width n) = n % 256 ^ width
  | 0, n => by simp [word, number, Nat.mod_one]
  | width + 1, n => by
    rw [word, number_cons, length_word, number_word width n, Nat.mod_pow_succ]
    simp only [Nat.pow_eq, UInt8.toNat_ofNat']
    ring

theorem length_signedWord (width : Nat) (i : Int) : (signedWord width i).length = width :=
  length_word ..

/-- A signed number that fits the width reads back. -/
theorem signed_signedWord {width : Nat} {i : Int} (hlo : -(256 ^ width : Nat) ≤ 2 * i)
    (hhi : 2 * i < (256 ^ width : Nat)) : signed (signedWord width i) = i := by
  have hpos : (0 : Int) < (256 ^ width : Nat) := Int.natCast_pos.mpr (Nat.pow_pos (by decide))
  simp only [signed, signedWord, length_word, number_word, Nat.pow_eq]
  generalize (256 ^ width : Nat) = size at *
  have hmod : ((i % (size : Int)).toNat % size : Nat) = (i % (size : Int)).toNat := by
    refine Nat.mod_eq_of_lt ?_
    have := Int.emod_lt_of_pos i hpos
    have := Int.emod_nonneg i (ne_of_gt hpos)
    omega
  rw [hmod]
  -- a negative number is stored `size` higher, in the upper half
  rcases Int.lt_or_le i 0 with hi | hi
  · have hshift : i % (size : Int) = i + size := by
      rw [← Int.add_emod_right]
      exact Int.emod_eq_of_lt (by omega) (by omega)
    rw [hshift]
    split <;> omega
  · rw [Int.emod_eq_of_lt hi (by omega)]
    split <;> omega

theorem split?_append {n : Nat} {front : Bytes} (h : front.length = n) (rest : Bytes) :
    split? n (front ++ rest) = some (front, rest) := by
  subst h
  simp [split?]

theorem split?_word (width n : Nat) (rest : Bytes) :
    split? width (word width n ++ rest) = some (word width n, rest) :=
  split?_append (length_word ..) rest

theorem split?_signedWord (width : Nat) (i : Int) (rest : Bytes) :
    split? width (signedWord width i ++ rest) = some (signedWord width i, rest) :=
  split?_append (length_signedWord ..) rest

end Key

/-! ## Components -/

theorem Interval.ofNanos?_of_le {n : Int} (h : n.natAbs ≤ maxNanos) : ofNanos? n = some ⟨n, h⟩ :=
  dif_pos h

/-- An interval is put together again from its whole seconds and the rest. -/
theorem Interval.ofParts?_parts (d : Interval) :
    ofParts? d.wholeSeconds d.subsecNanos = some d := by
  have hd := d.inRange
  have hsum : d.wholeSeconds * second + d.subsecNanos = d.nanos := Int.tdiv_mul_add_tmod ..
  have hwhole : (d.wholeSeconds * second).natAbs ≤ maxNanos := by
    rw [wholeSeconds, Int.natAbs_mul, Int.natAbs_tdiv]
    exact Nat.le_trans (Nat.div_mul_le_self ..) hd
  have hrest : d.subsecNanos.natAbs ≤ maxNanos := by
    rw [subsecNanos, Int.natAbs_tmod]
    exact Nat.le_trans (Nat.mod_le ..) hd
  simp only [ofParts?, ofNanos?_of_le hwhole, ofNanos?_of_le hrest, Option.bind_eq_bind,
    Option.bind_some, add?, hsum]
  exact ofNanos?_of_le hd

theorem Instant.of?_parts (t : Instant) : of? t.secs t.nanos = some t := by
  simp [of?, t.valid]

/-- The value a key keeps: the two zeros of a double share one. -/
def Value.canonical : Value → Value
  | .double d => .double (if d.isZero then ⟨0⟩ else d)
  | v => v

namespace Key

/-- A component is read off the front of a key. -/
theorem readOne_component {v : Value} {ty : Ty} {bytes : Bytes} (hkind : v.ofKind ty = true)
    (h : component? v = some bytes) (rest : Bytes) :
    readOne ty (bytes ++ rest) = .ok (some (v.canonical, rest)) := by
  unfold Value.ofKind at hkind
  split at hkind <;> simp only [component?, Option.some.injEq, reduceCtorEq] at h hkind <;>
    try (subst h)
  case h_1 b => cases b <;> rfl
  case h_2 i =>
    have hi := i.toInt_lt
    have hi' := i.le_toInt
    simp only [readOne, split?_signedWord, Option.bind_eq_bind, Option.bind_some]
    rw [signed_signedWord (by simp; omega) (by simp; omega), Int64.ofInt_toInt]
    rfl
  case h_3 c =>
    have hc := c.toNat_lt
    simp only [readOne, split?_word, Option.bind_eq_bind, Option.bind_some, number_word]
    rw [Nat.mod_eq_of_lt (by simpa using hc), UInt64.ofNat_toNat]
    rfl
  case h_4 d =>
    have hd := d.bits.toNat_lt
    simp only [readOne, split?_word, Option.bind_eq_bind, Option.bind_some, number_word,
      Value.canonical]
    split
    · simp [pure, Except.pure]
    · rw [Nat.mod_eq_of_lt (by simpa using hd), UInt64.ofNat_toNat]
      rfl
  case h_5 s =>
    split at h <;> cases h
    rename_i hlen
    simp only [Nat.pow_eq] at hlen
    simp only [readOne, List.append_assoc, split?_word, Option.bind_eq_bind, Option.bind_some,
      number_word]
    rw [Nat.mod_eq_of_lt hlen, split?_append rfl]
    rfl
  case h_6 t =>
    obtain ⟨hlo, hhi, hnanos, -⟩ := t.valid
    simp only [Instant.firstSecond, Instant.lastSecond, Instant.second] at hlo hhi hnanos
    simp only [readOne, List.append_assoc, split?_signedWord, split?_word, Option.bind_eq_bind,
      Option.bind_some, number_word]
    rw [signed_signedWord (by simp; omega) (by simp; omega), Nat.mod_eq_of_lt (by simp; omega),
      Instant.of?_parts]
    rfl
  case h_7 d =>
    have hd := d.inRange
    have hwhole : d.wholeSeconds.natAbs ≤ d.nanos.natAbs / 1000000000 := by
      rw [Interval.wholeSeconds, Int.natAbs_tdiv]
      exact Nat.le_refl _
    have hrest : d.subsecNanos.natAbs < 1000000000 := by
      rw [Interval.subsecNanos, Int.natAbs_tmod]
      exact Nat.mod_lt _ (by decide)
    simp only [Interval.maxNanos] at hd
    simp only [readOne, List.append_assoc, split?_signedWord, Option.bind_eq_bind,
      Option.bind_some]
    rw [signed_signedWord (by simp; omega) (by simp; omega),
      signed_signedWord (by simp; omega) (by simp; omega)]
    simp only [Interval.ofParts?_parts, pure]
    rfl

/-! ## Tuples -/

/-- A key of a fitting tuple reads back as the tuple it was made of. -/
theorem decode_encode : ∀ {types : List Ty} {vals : List Value} {k : Key},
    encode? true types vals = some k → decode types k = .ok (some (vals.map Value.canonical))
  | [], [], k, h => by
    cases h
    rfl
  | [], _ :: _, _, h | _ :: _, [], _, h => by simp [encode?] at h
  | ty :: types, v :: vals, k, h => by
    simp only [encode?, Bool.true_and, Bool.not_eq_eq_eq_not, Bool.not_true] at h
    split at h
    · cases h
    · rename_i hkind
      simp only [Option.bind_eq_bind, Option.bind_eq_some_iff, Option.pure_def,
        Option.some.injEq] at h
      obtain ⟨front, hfront, rest, hrest, rfl⟩ := h
      simp only [decode]
      rw [readOne_component (by simpa using hkind) hfront]
      simp only [bind, Except.bind, decode_encode hrest]
      rfl

end Key

end Vigil
