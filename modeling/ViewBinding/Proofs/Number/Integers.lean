import Mathlib
import ViewBinding.Value
import ViewBinding.Proofs.Number.Rounding

/-!
# Whole numbers as text

A number that is a whole number below `10 ^ 21` is shown by the decimal of that whole number
(`Binary64.IsInt.render_eq`). Integers become such numbers, those of up to 53 bits themselves and others
the nearest (`Value.render_integers`).
-/

namespace ViewBinding

/-! ## Decimals -/

/-- Decimal digits of a number without a zero in front, unless it is the only digit. -/
structure PlainDigits (digits : List Char) (n : Nat) : Prop where
  digit : ∀ c ∈ digits, c.isDigit = true
  nonempty : digits ≠ []
  leading : digits.head? = some '0' → digits = ['0']
  value : Nat.ofDigitChars 10 digits 0 = n

/-- A text is the decimal of an integer: a sign just for negative ones, and plain digits. -/
def IsDecimal (text : String) (z : Int) : Prop :=
  ∃ digits, text.toList = (if z < 0 then ['-'] else []) ++ digits ∧ PlainDigits digits z.natAbs

/-- An integer brought into the range of 128 bits. -/
def clampedTo128 (z : Int) : Int := max (-(2 ^ 127)) (min z (2 ^ 127 - 1))

private theorem head?_toDigits {n : Nat} (h : 0 < n) : (Nat.toDigits 10 n).head? ≠ some '0' := by
  induction n using Nat.strongRecOn with
  | ind n ih =>
    rw [Nat.toDigits_eq_if (by decide)]
    split
    · rename_i hlt
      interval_cases n <;> decide
    · rename_i hge
      have hfront := ih (n / 10) (by omega) (by omega)
      rw [List.head?_append_of_ne_nil _ Nat.toDigits_ne_nil]
      exact hfront

private theorem plainDigits_toDigits (n : Nat) : PlainDigits (Nat.toDigits 10 n) n where
  digit := fun _ hc => Nat.isDigit_of_mem_toDigits (b := 10) (by decide) (by decide) hc
  nonempty := Nat.toDigits_ne_nil
  leading := by
    intro hhead
    rcases Nat.eq_zero_or_pos n with rfl | hpos
    · rfl
    · exact absurd hhead (head?_toDigits hpos)
  value := Nat.ofDigitChars_ten_toDigits

private theorem toString_int (z : Int) :
    toString z = String.ofList ((if z < 0 then ['-'] else []) ++ Nat.toDigits 10 z.natAbs) := by
  rw [Int.toString_eq_repr, Int.repr_eq_if]
  split
  · rename_i hz
    rw [if_neg (Int.not_lt.mpr hz), List.nil_append, Nat.repr_eq_ofList_toDigits]
    congr 2
    omega
  · rename_i hz
    rw [if_pos (Int.not_le.mp hz), String.ofList_append, Nat.repr_eq_ofList_toDigits]
    congr 3
    omega

private theorem isDecimal_toString (z : Int) : IsDecimal (toString z) z := by
  rw [toString_int]
  exact ⟨_, String.toList_ofList, plainDigits_toDigits _⟩

namespace Binary64

/-- A finite number is a whole number. -/
structure IsInt (x : Binary64) (z : Int) : Prop where
  finite : x.isFinite = true
  signedUnits : x.signedUnits = z * unitsPerOne

private theorem isWhole_iff {x : Binary64} (h : x.isFinite = true) :
    x.isWhole = true ↔ ∃ z, x.IsInt z := by
  have hunits := x.natAbs_signedUnits
  rw [isWhole, beq_iff_eq, ← Nat.dvd_iff_mod_eq_zero, ← hunits, ← Int.natCast_dvd]
  constructor
  · rintro ⟨z, hz⟩
    exact ⟨z, h, hz.trans (Int.mul_comm _ _)⟩
  · rintro ⟨z, hz⟩
    exact Dvd.intro_left z hz.signedUnits.symm

private theorem units_largeLimit : largeLimit.units = 10 ^ 21 * unitsPerOne := by decide +kernel

private theorem units_smallLimit : smallLimit.units ≤ unitsPerOne := by decide +kernel

namespace IsInt

variable {x y : Binary64} {z w : Int}

private theorem units_eq (h : x.IsInt z) : x.units = z.natAbs * unitsPerOne := by
  rw [← natAbs_signedUnits, h.signedUnits, Int.natAbs_mul, Int.natAbs_natCast]

private theorem isNegative_iff (h : x.IsInt z) : (x.isNegative = true ∧ x.units ≠ 0) ↔ z < 0 := by
  have hunit : (0 : Int) < unitsPerOne := Int.natCast_pos.mpr unitsPerOne_pos
  have hproduct : z < 0 ↔ z * unitsPerOne < 0 :=
    ⟨fun hz => mul_neg_of_neg_of_pos hz hunit, fun hlt => neg_of_mul_neg_left hlt hunit.le⟩
  rw [hproduct, ← h.signedUnits, Binary64.signedUnits]
  split
  · rename_i hnegative
    rw [and_iff_right hnegative]
    omega
  · rename_i hnegative
    simp [hnegative]

/-- A whole number below the limit is shown by its decimal. -/
theorem render_eq (h : x.IsInt z) (hz : z.natAbs < 10 ^ 21) : x.render = toString z := by
  have hfinite : x.magnitudeWord < infinityWord := of_decide_eq_true h.finite
  have hnan : x.isNaN = false := decide_eq_false (by omega)
  have hinfinite : x.isInfinite = false := beq_false_of_ne (by omega)
  have hunits := h.units_eq
  have hpos := unitsPerOne_pos
  have hlarge : ¬ largeLimit.units ≤ x.units := by
    rw [units_largeLimit, hunits, Nat.mul_le_mul_right_iff hpos]
    omega
  have hsmall : x.units < smallLimit.units → x.units = 0 := by
    intro hlt
    rw [hunits] at hlt ⊢
    have hone : z.natAbs * unitsPerOne < 1 * unitsPerOne := by
      rw [Nat.one_mul]
      exact hlt.trans_le units_smallLimit
    rw [Nat.lt_one_iff.mp (Nat.lt_of_mul_lt_mul_right hone), Nat.zero_mul]
  have hexponent : x.needsExponent = false := by
    rw [needsExponent, Bool.or_eq_false_iff, Bool.and_eq_false_imp]
    exact ⟨decide_eq_false hlarge, fun hlt => by simp [hsmall (of_decide_eq_true hlt)]⟩
  have hwhole : x.isWhole = true := by
    rw [isWhole, hunits, Nat.mul_mod_left, beq_self_eq_true]
  have hpart : x.wholePart = z.natAbs := by
    rw [wholePart, hunits, Nat.mul_div_cancel _ hpos]
  have hsign : (if (x.isNegative && x.units != 0) = true then ['-'] else []) =
      if z < 0 then ['-'] else [] := by
    apply if_congr _ rfl rfl
    rw [Bool.and_eq_true, bne_iff_ne]
    exact h.isNegative_iff
  simp only [render, hnan, hinfinite, hsign, magnitudeText, hexponent, hwhole, hpart,
    decimalDigits, toString_int, Bool.false_eq_true, ↓reduceIte]

private theorem numEq_iff (hx : x.IsInt z) (hy : y.IsInt w) : x.numEq y = true ↔ z = w := by
  have hunit : (unitsPerOne : Int) ≠ 0 := Int.natCast_ne_zero.mpr unitsPerOne_pos.ne'
  have hsame : z = w ↔ x.signedUnits = y.signedUnits := by
    rw [hx.signedUnits, hy.signedUnits, Int.mul_eq_mul_right_iff hunit]
  have hnan : (x.isNaN || y.isNaN) = false := by
    have hfinite : x.magnitudeWord < infinityWord := of_decide_eq_true hx.finite
    have hfinite' : y.magnitudeWord < infinityWord := of_decide_eq_true hy.finite
    rw [Bool.or_eq_false_iff]
    exact ⟨decide_eq_false (by omega), decide_eq_false (by omega)⟩
  rw [hsame, numEq, hnan, if_neg (by decide), Bool.or_eq_true, Bool.and_eq_true, beq_iff_eq,
    beq_iff_eq, beq_iff_eq]
  exact signedUnits_eq_iff.symm

end IsInt

/-! ## Integers as numbers -/

private theorem pow_scaleFor_dvd {n : Nat} (h : n ≤ 2 ^ 53) :
    2 ^ scaleFor (n * unitsPerOne) ∣ n * unitsPerOne := by
  have hscale : scaleFor (n * unitsPerOne) ≤ (n * unitsPerOne).log2 - 52 := by
    unfold scaleFor
    split <;> omega
  rcases Nat.lt_or_eq_of_le h with hlt | heq
  · have hlog : (n * unitsPerOne).log2 < 53 + 1074 := log2_mul_unitsPerOne_lt hlt
    have hdvd : 2 ^ scaleFor (n * unitsPerOne) ∣ unitsPerOne := pow_dvd_unitsPerOne (by omega)
    exact hdvd.mul_left n
  · have hlog : (n * unitsPerOne).log2 < 54 + 1074 := log2_mul_unitsPerOne_lt (by omega)
    generalize scaleFor (n * unitsPerOne) = s at *
    calc 2 ^ s ∣ 2 ^ (53 + (s - 1)) := Nat.pow_dvd_pow 2 (by omega)
      _ = n * 2 ^ (s - 1) := by rw [heq, Nat.pow_add]
      _ ∣ n * unitsPerOne := Nat.mul_dvd_mul_left n (pow_dvd_unitsPerOne (by omega))

private theorem exists_units_ofInt {n : Int} (h : n.natAbs ≤ 2 ^ 63) :
    ∃ k, (ofInt n).units = k * unitsPerOne ∧ k < 10 ^ 21 ∧ (n.natAbs ≤ 2 ^ 53 → k = n.natAbs) := by
  have hround := roundWord_integer_lt h
  obtain ⟨hunits, -⟩ := units_ofUnits (decide (n < 0)) hround
  have hrounded : ofInt n = ofUnits (decide (n < 0)) (n.natAbs * unitsPerOne) 1 := rfl
  rw [← hrounded] at hunits
  have hself : 2 ^ scaleFor (n.natAbs * unitsPerOne) ∣ n.natAbs * unitsPerOne →
      (ofInt n).units = n.natAbs * unitsPerOne := by
    intro hdvd
    rw [hunits, divHalfEven_of_dvd (Nat.two_pow_pos _) hdvd]
  by_cases hscale : scaleFor (n.natAbs * unitsPerOne) ≤ 1074
  · have hdvd := Dvd.dvd.mul_left (pow_dvd_unitsPerOne hscale) n.natAbs
    exact ⟨n.natAbs, hself hdvd, by omega, fun _ => rfl⟩
  · obtain ⟨k, hk⟩ := Dvd.dvd.mul_left (unitsPerOne_dvd_pow (Nat.le_of_not_le hscale))
      (divHalfEven (n.natAbs * unitsPerOne) (2 ^ scaleFor (n.natAbs * unitsPerOne)))
    rw [← hunits, Nat.mul_comm] at hk
    -- zero is no nearer, so the units are at most twice those of the integer
    have hzero := (nearest_roundWord (decide (n < 0)) hround (zero false)).1
    have hnone : (zero false).units = 0 := by decide
    rw [← hrounded, hnone, hk] at hzero
    have hle : k * unitsPerOne ≤ 2 * n.natAbs * unitsPerOne := by
      unfold Nat.dist at hzero
      rw [Nat.mul_assoc]
      generalize n.natAbs * unitsPerOne = num at *
      generalize k * unitsPerOne = units at *
      omega
    have hk' : k ≤ 2 * n.natAbs := Nat.le_of_mul_le_mul_right hle unitsPerOne_pos
    refine ⟨k, hk, by omega, fun hn => ?_⟩
    have hexact := hself (pow_scaleFor_dvd hn)
    exact Nat.eq_of_mul_eq_mul_right unitsPerOne_pos (hk.symm.trans hexact)

/-- Integers of 64 bits become whole numbers, those of up to 53 bits themselves. -/
theorem exists_isInt_ofInt {n : Int} (h : n.natAbs ≤ 2 ^ 63) :
    ∃ z, (ofInt n).IsInt z ∧ z.natAbs < 10 ^ 21 ∧ (n.natAbs ≤ 2 ^ 53 → z = n) := by
  obtain ⟨k, hunits, hk, hexact⟩ := exists_units_ofInt h
  refine ⟨if n < 0 then -k else k, ⟨(nearestTo_ofInt h).finite, ?_⟩, ?_, ?_⟩
  · rw [signedUnits_ofInt, hunits, Int.natCast_mul]
    split
    · rw [Int.neg_mul]
    · rfl
  · split <;> omega
  · intro hn
    rw [hexact hn]
    split <;> omega

end Binary64

open Binary64 in
/-- A number without a fraction below `10 ^ 21` is shown by the decimal of the integer that it is, which
is within 128 bits; numbers that are shown alike are equal. Integers of up to 53 bits are shown by their
own decimal, and others of 64 bits by that of the nearest number, which has no fraction either. -/
theorem Value.render_integers :
    (∀ x : Binary64, x.isFinite = true → (x.isWhole = true ↔ ∃ z, IsInt x z)) ∧
    (∀ x z, IsInt x z → z.natAbs < 10 ^ 21 →
      (number x).render = toString z ∧ IsDecimal (number x).render z ∧ clampedTo128 z = z) ∧
    (∀ n : Int, n.natAbs ≤ 2 ^ 53 → (Value.ofInt n).render = toString n) ∧
    (∀ n : Int, -(2 ^ 63) ≤ n → n < 2 ^ 63 → ∃ x z, Value.ofInt n = number x ∧ IsInt x z ∧
      NearestTo x n ∧ (Value.ofInt n).render = toString z ∧ IsDecimal (Value.ofInt n).render z) ∧
    ∀ x y z w, IsInt x z → IsInt y w → z.natAbs < 10 ^ 21 → w.natAbs < 10 ^ 21 →
      ((number x).render = (number y).render ↔ (number x).eq (number y) = true) := by
  have hrender : ∀ x z, IsInt x z → z.natAbs < 10 ^ 21 → (number x).render = toString z :=
    fun x z hx hz => hx.render_eq hz
  refine ⟨fun _ => isWhole_iff, fun x z hx hz => ?_, fun n hn => ?_, fun n hlow hhigh => ?_,
    fun x y z w hx hy hz hw => ?_⟩
  · rw [hrender x z hx hz]
    refine ⟨rfl, isDecimal_toString z, ?_⟩
    unfold clampedTo128
    omega
  · obtain ⟨z, hz, hlt, hexact⟩ := exists_isInt_ofInt (n := n) (by omega)
    rw [Value.ofInt, hrender _ z hz hlt, hexact hn]
  · have hn : n.natAbs ≤ 2 ^ 63 := by omega
    obtain ⟨z, hz, hlt, -⟩ := exists_isInt_ofInt hn
    have heq : (Value.ofInt n).render = toString z := hrender _ z hz hlt
    exact ⟨_, z, rfl, hz, nearestTo_ofInt hn, heq, heq ▸ isDecimal_toString z⟩
  · rw [hrender x z hx hz, hrender y w hy hw, Value.eq, hx.numEq_iff hy, Int.toString_eq_repr,
      Int.toString_eq_repr, Int.repr_inj]

/-- Halfway between two numbers, the even significand is taken. -/
example : (Value.ofInt 9007199254740993).render = "9007199254740992" := by decide +kernel

end ViewBinding
