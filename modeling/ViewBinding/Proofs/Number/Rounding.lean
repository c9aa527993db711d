import Mathlib
import ViewBinding.Number.Binary64

/-!
# Rounding whole units

A whole number of units is rounded to the finite number nearest to it, and of two equally near ones to
the one with an even significand (`Binary64.nearest_roundWord`). Numbers are compared by their units,
so all of this is about natural numbers; `Binary64.nearestTo_ofInt` says it of integers with a sign.
-/

namespace ViewBinding
namespace Binary64

theorem unitsPerOne_pos : 0 < unitsPerOne := by
  unfold unitsPerOne
  generalize 1074 = k
  exact Nat.two_pow_pos k

theorem pow_dvd_unitsPerOne {s : Nat} (h : s ≤ 1074) : 2 ^ s ∣ unitsPerOne := by
  unfold unitsPerOne
  generalize 1074 = k at *
  exact Nat.pow_dvd_pow 2 h

theorem unitsPerOne_dvd_pow {s : Nat} (h : 1074 ≤ s) : unitsPerOne ∣ 2 ^ s := by
  unfold unitsPerOne
  generalize 1074 = k at *
  exact Nat.pow_dvd_pow 2 h

/-! ## Words -/

private theorem bits_ofMagnitude (negative : Bool) {word : Nat} (h : word < 2 ^ 63) :
    (ofMagnitude negative word).bits.toNat = (if negative then 2 ^ 63 else 0) + word := by
  have hpow : Nat.pow 2 63 = 2 ^ 63 := rfl
  rw [ofMagnitude, hpow, UInt64.toNat_ofNat']
  cases negative
  · rw [if_neg (by decide), if_neg (by decide), Nat.zero_add]
    exact Nat.mod_eq_of_lt (by omega)
  · rw [if_pos rfl, if_pos rfl]
    exact Nat.mod_eq_of_lt (by omega)

private theorem magnitudeWord_ofMagnitude (negative : Bool) {word : Nat} (h : word < 2 ^ 63) :
    (ofMagnitude negative word).magnitudeWord = word := by
  rw [magnitudeWord, bits_ofMagnitude negative h]
  change _ % 2 ^ 63 = word
  cases negative
  · rw [if_neg (by decide)]
    omega
  · rw [if_pos rfl]
    omega

private theorem isNegative_ofMagnitude (negative : Bool) {word : Nat} (h : word < 2 ^ 63) :
    (ofMagnitude negative word).isNegative = negative := by
  rw [isNegative, bits_ofMagnitude negative h]
  change decide (2 ^ 63 ≤ _) = negative
  cases negative
  · rw [if_neg (by decide)]
    exact decide_eq_false (by omega)
  · rw [if_pos rfl]
    exact decide_eq_true (by omega)

private theorem significand_lt (x : Binary64) : x.significand < 2 ^ 53 := by
  have hscale : x.scale = x.magnitudeWord / 2 ^ 52 - 1 := rfl
  have hsignificand : x.significand = x.magnitudeWord - x.scale * 2 ^ 52 := rfl
  omega

private theorem significand_normal (x : Binary64) : 2 ^ 52 ≤ x.significand ∨ x.scale = 0 := by
  have hscale : x.scale = x.magnitudeWord / 2 ^ 52 - 1 := rfl
  have hsignificand : x.significand = x.magnitudeWord - x.scale * 2 ^ 52 := rfl
  omega

private theorem magnitudeWord_eq_of_units_eq {x y : Binary64} (h : x.units = y.units) :
    x.magnitudeWord = y.magnitudeWord := by
  have hscale : ∀ a b : Binary64, a.units = b.units → b.scale ≤ a.scale := by
    intro a b hunits
    by_contra hlt
    have hb : 2 ^ 52 ≤ b.significand := by
      rcases b.significand_normal with hnormal | hzero
      · exact hnormal
      · omega
    have hle : 2 ^ 52 * 2 ^ (a.scale + 1) ≤ b.units := by
      change _ ≤ b.significand * 2 ^ b.scale
      exact Nat.mul_le_mul hb (Nat.pow_le_pow_right (by decide) (by omega))
    have hgt : a.units < 2 ^ 53 * 2 ^ a.scale :=
      Nat.mul_lt_mul_of_pos_right a.significand_lt (Nat.two_pow_pos _)
    rw [pow_succ] at hle
    omega
  have hscales : x.scale = y.scale := Nat.le_antisymm (hscale y x h.symm) (hscale x y h)
  have hsignificands : x.significand * 2 ^ x.scale = y.significand * 2 ^ y.scale := h
  rw [hscales] at hsignificands
  have hsignificand := Nat.eq_of_mul_eq_mul_right (Nat.two_pow_pos _) hsignificands
  have hx : x.significand = x.magnitudeWord - x.scale * 2 ^ 52 := rfl
  have hy : y.significand = y.magnitudeWord - y.scale * 2 ^ 52 := rfl
  have hsx : x.scale = x.magnitudeWord / 2 ^ 52 - 1 := rfl
  have hsy : y.scale = y.magnitudeWord / 2 ^ 52 - 1 := rfl
  omega

private theorem bits_eq (x : Binary64) :
    x.bits.toNat = (if x.isNegative then 2 ^ 63 else 0) + x.magnitudeWord := by
  have hlt := x.bits.toNat_lt
  have hmagnitude : x.magnitudeWord = x.bits.toNat % 2 ^ 63 := rfl
  have hnegative : x.isNegative = decide (2 ^ 63 ≤ x.bits.toNat) := rfl
  rw [hmagnitude, hnegative]
  split
  · rename_i h
    have := of_decide_eq_true h
    omega
  · rename_i h
    have := of_decide_eq_false (eq_false_of_ne_true h)
    omega

theorem units_eq_zero_iff (x : Binary64) : x.units = 0 ↔ x.magnitudeWord = 0 := by
  have hzero : (zero false).units = 0 := by decide
  constructor
  · intro h
    exact magnitudeWord_eq_of_units_eq (h.trans hzero.symm)
  · intro h
    have hscale : x.scale = x.magnitudeWord / 2 ^ 52 - 1 := rfl
    have hsignificand : x.significand = x.magnitudeWord - x.scale * 2 ^ 52 := rfl
    have hunits : x.units = x.significand * 2 ^ x.scale := rfl
    rw [hunits, hsignificand, h, Nat.zero_sub, Nat.zero_mul]

theorem natAbs_signedUnits (x : Binary64) : x.signedUnits.natAbs = x.units := by
  unfold signedUnits
  split
  · rw [Int.natAbs_neg, Int.natAbs_natCast]
  · rw [Int.natAbs_natCast]

/-- Numbers have the same units with their signs when their words are the same, or both are zero. -/
theorem signedUnits_eq_iff {x y : Binary64} :
    x.signedUnits = y.signedUnits ↔
      x.bits = y.bits ∨ x.magnitudeWord = 0 ∧ y.magnitudeWord = 0 := by
  constructor
  · intro h
    rw [← units_eq_zero_iff, ← units_eq_zero_iff]
    by_cases hzero : x.units = 0 ∧ y.units = 0
    · exact .inr hzero
    · left
      have hunits : x.units = y.units := by
        rw [← natAbs_signedUnits, h, natAbs_signedUnits]
      have hsign : x.isNegative = y.isNegative := by
        by_contra hne
        unfold signedUnits at h
        cases hx : x.isNegative <;> cases hy : y.isNegative <;>
          simp only [hx, hy, Bool.false_eq_true, ↓reduceIte, not_true_eq_false] at h hne <;> omega
      rw [← UInt64.toNat_inj, x.bits_eq, y.bits_eq, hsign, magnitudeWord_eq_of_units_eq hunits]
  · rintro (h | ⟨hx, hy⟩)
    · obtain rfl : x = y := by
        cases x
        cases y
        exact congrArg _ h
      rfl
    · rw [← units_eq_zero_iff] at hx hy
      simp [signedUnits, hx, hy]

private theorem units_of_word {x : Binary64} {s q : Nat} (hword : x.magnitudeWord = s * 2 ^ 52 + q)
    (hle : q ≤ 2 ^ 53) (hnormal : 2 ^ 52 ≤ q ∨ s = 0) :
    x.units = q * 2 ^ s ∧ (q % 2 = 0 → x.significand % 2 = 0) := by
  have hscale : x.scale = x.magnitudeWord / 2 ^ 52 - 1 := rfl
  have hsignificand : x.significand = x.magnitudeWord - x.scale * 2 ^ 52 := rfl
  have hunits : x.units = x.significand * 2 ^ x.scale := rfl
  -- A significand that was rounded up to that has gone over into the exponent.
  by_cases hq : q = 2 ^ 53
  · have hs : x.scale = s + 1 := by omega
    have hm : x.significand = 2 ^ 52 := by omega
    rw [hunits, hs, hm, hq, pow_succ]
    exact ⟨by ring, fun _ => rfl⟩
  · have hs : x.scale = s := by omega
    have hm : x.significand = q := by omega
    rw [hunits, hs, hm]
    exact ⟨rfl, id⟩

private theorem units_grid (x : Binary64) (s : Nat) :
    (∃ k, x.units = k * 2 ^ s) ∨ x.units < 2 ^ 52 * 2 ^ s := by
  have hunits : x.units = x.significand * 2 ^ x.scale := rfl
  rcases Nat.lt_or_ge x.scale s with hlt | hge
  · right
    calc x.units < 2 ^ 53 * 2 ^ x.scale := by
          rw [hunits]
          exact Nat.mul_lt_mul_of_pos_right x.significand_lt (Nat.two_pow_pos _)
      _ = 2 ^ 52 * 2 ^ (x.scale + 1) := by ring
      _ ≤ 2 ^ 52 * 2 ^ s := Nat.mul_le_mul_left _ (Nat.pow_le_pow_right (by decide) hlt)
  · left
    refine ⟨x.significand * 2 ^ (x.scale - s), ?_⟩
    rw [hunits, mul_assoc, ← pow_add, Nat.sub_add_cancel hge]

/-! ## Dividing to the nearest -/

private theorem divHalfEven_cases (num den : Nat) :
    (divHalfEven num den = num / den ∧ 2 * (num % den) ≤ den) ∨
      (divHalfEven num den = num / den + 1 ∧ den ≤ 2 * (num % den)) := by
  unfold divHalfEven
  dsimp only
  split
  · exact .inl ⟨rfl, by omega⟩
  split
  · rcases Nat.mod_two_eq_zero_or_one (num / den) with heven | hodd
    · exact .inl ⟨by omega, by omega⟩
    · exact .inr ⟨by omega, by omega⟩
  · exact .inr ⟨rfl, by omega⟩

theorem divHalfEven_of_dvd {num den : Nat} (hden : 0 < den) (h : den ∣ num) :
    divHalfEven num den * den = num := by
  have hrest : num % den = 0 := Nat.mod_eq_zero_of_dvd h
  rcases divHalfEven_cases num den with ⟨heq, -⟩ | ⟨-, hle⟩
  · rw [heq, Nat.div_mul_cancel h]
  · omega

private theorem divHalfEven_even {num den : Nat} (h : 2 * (num % den) = den) :
    divHalfEven num den % 2 = 0 := by
  unfold divHalfEven
  dsimp only
  rw [if_neg (by omega), if_pos h]
  omega

private theorem dist_divHalfEven_le (num : Nat) {den : Nat} (hden : 0 < den) (k : Nat) :
    Nat.dist (divHalfEven num den * den) num ≤ Nat.dist (k * den) num := by
  have hdiv := Nat.div_add_mod' num den
  have hrest := Nat.mod_lt num hden
  have hside : k * den ≤ num / den * den ∨ num / den * den + den ≤ k * den := by
    rcases Nat.lt_or_ge (num / den) k with hlt | hge
    · right
      rw [← Nat.succ_mul]
      exact Nat.mul_le_mul_right den hlt
    · exact .inl (Nat.mul_le_mul_right den hge)
  unfold Nat.dist
  rcases divHalfEven_cases num den with ⟨heq, hle⟩ | ⟨heq, hle⟩
  · rw [heq]
    omega
  · rw [heq, Nat.succ_mul]
    omega

private theorem halfway_of_dist_eq {num den k : Nat} (hden : 0 < den) (hk : k ≠ divHalfEven num den)
    (h : Nat.dist (divHalfEven num den * den) num = Nat.dist (k * den) num) :
    2 * (num % den) = den := by
  have hdiv := Nat.div_add_mod' num den
  have hrest := Nat.mod_lt num hden
  have hside : k * den + den ≤ num / den * den ∨ k = num / den ∨ k = num / den + 1 ∨
      num / den * den + 2 * den ≤ k * den := by
    rcases Nat.lt_or_ge k (num / den) with hlt | hge
    · left
      rw [← Nat.succ_mul]
      exact Nat.mul_le_mul_right den hlt
    · rcases Nat.lt_or_ge (num / den + 1) k with hlt | hle
      · refine .inr (.inr (.inr ?_))
        rw [← Nat.add_mul]
        exact Nat.mul_le_mul_right den hlt
      · omega
  unfold Nat.dist at h
  rcases divHalfEven_cases num den with ⟨heq, hle⟩ | ⟨heq, hle⟩ <;> rw [heq] at hk h
  · rcases hside with hbelow | rfl | rfl | habove
    · omega
    · exact absurd rfl hk
    · rw [Nat.succ_mul] at h
      omega
    · omega
  · rw [Nat.succ_mul] at h
    rcases hside with hbelow | rfl | rfl | habove
    · omega
    · omega
    · exact absurd rfl hk
    · omega

/-! ## Rounding -/

private theorem significand_bounds (num : Nat) :
    divHalfEven num (2 ^ scaleFor num) ≤ 2 ^ 53 ∧
      (scaleFor num = 0 ∨
        2 ^ 52 ≤ num / 2 ^ scaleFor num ∧ 2 ^ 52 ≤ divHalfEven num (2 ^ scaleFor num)) := by
  have hcases := divHalfEven_cases num (2 ^ scaleFor num)
  have hpos : 0 < 2 ^ scaleFor num := Nat.two_pow_pos _
  by_cases hsmall : num < Nat.pow 2 53
  · have hscale : scaleFor num = 0 := if_pos hsmall
    have hnum : num < 2 ^ 53 := hsmall
    rw [hscale, pow_zero, Nat.div_one] at hcases ⊢
    omega
  · have hscale : scaleFor num = num.log2 - 52 := if_neg hsmall
    have hnum : 2 ^ 53 ≤ num := Nat.le_of_not_lt hsmall
    have hlog : 52 < num.log2 := (Nat.le_log2 (by omega)).mpr (by omega)
    have hlow : 2 ^ 52 ≤ num / 2 ^ scaleFor num := by
      rw [Nat.le_div_iff_mul_le hpos, ← pow_add, hscale, Nat.add_sub_cancel' hlog.le]
      exact Nat.log2_self_le (by omega)
    have hhigh : num / 2 ^ scaleFor num < 2 ^ 53 := by
      rw [Nat.div_lt_iff_lt_mul hpos, ← pow_add, hscale]
      have heq : 53 + (num.log2 - 52) = num.log2 + 1 := by omega
      rw [heq]
      exact Nat.lt_log2_self
    omega

/-- What a whole number of units is rounded to, unless that is infinite. -/
theorem units_ofUnits (negative : Bool) {num : Nat} (h : roundWord num 1 < infinityWord) :
    (ofUnits negative num 1).units = divHalfEven num (2 ^ scaleFor num) * 2 ^ scaleFor num ∧
      (divHalfEven num (2 ^ scaleFor num) % 2 = 0 →
        (ofUnits negative num 1).significand % 2 = 0) := by
  have hround : roundWord num 1 =
      min (scaleFor num * 2 ^ 52 + divHalfEven num (2 ^ scaleFor num)) infinityWord := by
    rw [roundWord, Nat.div_one, Nat.one_mul]
    rfl
  obtain ⟨hle, hnormal⟩ := significand_bounds num
  have hword : (ofUnits negative num 1).magnitudeWord =
      scaleFor num * 2 ^ 52 + divHalfEven num (2 ^ scaleFor num) := by
    have hinfinity : infinityWord < 2 ^ 63 := by decide
    rw [ofUnits, magnitudeWord_ofMagnitude negative (h.trans hinfinity), hround]
    omega
  exact units_of_word hword hle (by omega)

/-- A finite result of rounding is nearest, and even if another number is as near. -/
theorem nearest_roundWord (negative : Bool) {num : Nat} (h : roundWord num 1 < infinityWord)
    (y : Binary64) :
    Nat.dist (ofUnits negative num 1).units num ≤ Nat.dist y.units num ∧
      (y.units ≠ (ofUnits negative num 1).units →
        Nat.dist (ofUnits negative num 1).units num = Nat.dist y.units num →
          (ofUnits negative num 1).significand % 2 = 0) := by
  obtain ⟨hunits, heven⟩ := units_ofUnits negative h
  have hpos : 0 < 2 ^ scaleFor num := Nat.two_pow_pos _
  rw [hunits]
  rcases y.units_grid (scaleFor num) with ⟨k, hk⟩ | hbelow
  · rw [hk]
    refine ⟨dist_divHalfEven_le num hpos k, fun hne hdist => heven ?_⟩
    have hkne : k ≠ divHalfEven num (2 ^ scaleFor num) := fun heq => hne (by rw [heq])
    exact divHalfEven_even (halfway_of_dist_eq hpos hkne hdist)
  · -- below the grid `2 ^ 52 * 2 ^ s` is nearer, and on it
    have hfirst := dist_divHalfEven_le num hpos (2 ^ 52)
    rcases (significand_bounds num).2 with hzero | ⟨hfull, -⟩
    · rw [hzero, pow_zero, Nat.mul_one] at hbelow ⊢
      have hself := dist_divHalfEven_le num Nat.one_pos y.units
      refine ⟨by simpa using hself, fun hne hdist => ?_⟩
      rw [hzero, pow_zero] at heven
      apply heven
      exact divHalfEven_even
        (halfway_of_dist_eq (k := y.units) Nat.one_pos hne (by simpa using hdist))
    · have hnum : 2 ^ 52 * 2 ^ scaleFor num ≤ num :=
        (Nat.mul_le_mul_right _ hfull).trans (Nat.div_mul_le_self _ _)
      unfold Nat.dist at hfirst ⊢
      omega

/-! ## Integers -/

/-- A finite number that no other one is nearer to an integer than. If another one is as near, its
significand is even. -/
structure NearestTo (x : Binary64) (n : Int) : Prop where
  finite : x.isFinite = true
  nearest : ∀ y : Binary64, y.isFinite = true →
    (x.signedUnits - n * unitsPerOne).natAbs ≤ (y.signedUnits - n * unitsPerOne).natAbs
  even : ∀ y : Binary64, y.isFinite = true → y.signedUnits ≠ x.signedUnits →
    (x.signedUnits - n * unitsPerOne).natAbs = (y.signedUnits - n * unitsPerOne).natAbs →
      x.significand % 2 = 0

private theorem roundWord_le (num den : Nat) :
    roundWord num den ≤ infinityWord := Nat.min_le_right _ _

private theorem infinityWord_lt : infinityWord < 2 ^ 63 := by decide

private theorem isNegative_ofUnits (negative : Bool) (num den : Nat) :
    (ofUnits negative num den).isNegative = negative :=
  isNegative_ofMagnitude negative ((roundWord_le num den).trans_lt infinityWord_lt)

private theorem isFinite_ofUnits (negative : Bool) {num : Nat}
    (h : roundWord num 1 < infinityWord) : (ofUnits negative num 1).isFinite = true := by
  rw [isFinite, ofUnits, magnitudeWord_ofMagnitude negative (h.trans infinityWord_lt)]
  exact decide_eq_true h

private theorem roundWord_lt {num : Nat} (h : num.log2 < 2097) :
    roundWord num 1 < infinityWord := by
  have hround : roundWord num 1 ≤
      scaleFor num * 2 ^ 52 + divHalfEven num (2 ^ scaleFor num) := by
    rw [roundWord, Nat.div_one, Nat.one_mul]
    exact Nat.min_le_left _ _
  have hinfinity : infinityWord = 2047 * 2 ^ 52 := rfl
  have hle := (significand_bounds num).1
  have hscale : scaleFor num ≤ num.log2 - 52 := by
    unfold scaleFor
    split <;> omega
  omega

theorem log2_mul_unitsPerOne_lt {n m : Nat} (h : n < 2 ^ m) :
    (n * unitsPerOne).log2 < m + 1074 := by
  have hpos : 0 < 1074 := by decide
  unfold unitsPerOne
  generalize 1074 = k at *
  by_cases hzero : n * Nat.pow 2 k = 0
  · rw [hzero, Nat.log2_zero]
    omega
  · rw [Nat.log2_lt hzero, pow_add]
    exact Nat.mul_lt_mul_of_pos_right h (Nat.two_pow_pos k)

private theorem natAbs_sub_of_sign (n : Int) (a unit : Nat) :
    ((if n < 0 then -(a : Int) else a) - n * unit).natAbs = Nat.dist a (n.natAbs * unit) := by
  unfold Nat.dist
  rcases Int.eq_nat_or_neg n with ⟨k, rfl | rfl⟩
  · rw [if_neg (by omega), Int.natAbs_natCast]
    omega
  · rw [Int.natAbs_neg, Int.natAbs_natCast, Int.neg_mul]
    split
    · omega
    · have hk : k = 0 := by omega
      subst hk
      omega

private theorem dist_natAbs_le (a b : Int) : Nat.dist a.natAbs b.natAbs ≤ (a - b).natAbs := by
  unfold Nat.dist
  omega

private theorem isNegative_ofInt (n : Int) : (ofInt n).isNegative = decide (n < 0) :=
  isNegative_ofUnits _ _ _

theorem signedUnits_ofInt (n : Int) :
    (ofInt n).signedUnits = if n < 0 then -((ofInt n).units : Int) else (ofInt n).units := by
  rw [signedUnits, isNegative_ofInt]
  simp only [decide_eq_true_eq]

/-- Integers of 64 bits stay far below the limit of the format. -/
theorem roundWord_integer_lt {n : Nat} (h : n ≤ 2 ^ 63) :
    roundWord (n * unitsPerOne) 1 < infinityWord := by
  have hlog : (n * unitsPerOne).log2 < 64 + 1074 := log2_mul_unitsPerOne_lt (by omega)
  exact roundWord_lt (hlog.trans (by decide))

/-- An integer of 64 bits becomes the nearest number. -/
theorem nearestTo_ofInt {n : Int} (h : n.natAbs ≤ 2 ^ 63) : (ofInt n).NearestTo n := by
  have hround := roundWord_integer_lt h
  have hself : ((ofInt n).signedUnits - n * unitsPerOne).natAbs =
      Nat.dist (ofInt n).units (n.natAbs * unitsPerOne) := by
    rw [signedUnits_ofInt, natAbs_sub_of_sign]
  have hother : ∀ y : Binary64, Nat.dist y.units (n.natAbs * unitsPerOne) ≤
      (y.signedUnits - n * unitsPerOne).natAbs := by
    intro y
    have hle := dist_natAbs_le y.signedUnits (n * unitsPerOne)
    rwa [natAbs_signedUnits, Int.natAbs_mul, Int.natAbs_natCast] at hle
  have hrounded : ofInt n = ofUnits (decide (n < 0)) (n.natAbs * unitsPerOne) 1 := rfl
  have hnear := nearest_roundWord (decide (n < 0)) hround
  rw [← hrounded] at hnear
  refine ⟨isFinite_ofUnits _ hround, fun y _ => ?_, fun y _ hne heq => ?_⟩
  · rw [hself]
    exact (hnear y).1.trans (hother y)
  · obtain ⟨hle, htie⟩ := hnear y
    have hdist : Nat.dist (ofInt n).units (n.natAbs * unitsPerOne) =
        Nat.dist y.units (n.natAbs * unitsPerOne) := by
      apply le_antisymm hle
      rw [← hself, heq]
      exact hother y
    refine htie (fun hunits => ?_) hdist
    -- a number of the other sign is as near only from zero, which becomes zero
    have hzero := (hnear (zero false)).1
    have hx := (ofInt n).natAbs_signedUnits
    have hy := y.natAbs_signedUnits
    have habs : (n * unitsPerOne).natAbs = n.natAbs * unitsPerOne := by
      rw [Int.natAbs_mul, Int.natAbs_natCast]
    have hnone : (zero false).units = 0 := by decide
    rw [hnone] at hzero
    unfold Nat.dist at hzero
    generalize n.natAbs * unitsPerOne = num at *
    generalize n * unitsPerOne = target at *
    omega

end Binary64
end ViewBinding
