import JsonRules.Proofs.Double.Nearest
import JsonRules.Proofs.Integer

/-!
# Exact results

The remainder of two doubles has few enough digits to be a double itself, so it is exact
(`exists_rem_eq`). The remainder with the sign of the divisor is the exact one where the signs agree, and
is rounded where the divisor is added (`exists_floorMod_eq`).

A double stands for an integer if that is its value, where a zero of either sign stands for zero
(`Double.IsInteger`). Sums and products of doubles that stand for integers stand for the exact ones, as
long as 53 digits are enough for these (`exists_add_eq`, `exists_mul_eq`): the factors may have any size.

The greatest signed word is no double: `2 ^ 63 - 1` is rounded up to `2 ^ 63` when it is compared with one.
As that bound is left out, the whole doubles within the bounds are just those that stand for a signed word
(`isWithinWords_iff`, `IsInteger.isWithinWords_iff`), and these become that word as they are: nothing is cut
off and no bound is reached (`IsInteger.toInt_toWord`).
-/

namespace JsonRules

/-! ## Remainders -/

namespace Double

/-! ### Remainders of doubles -/

variable {x y : Double}

theorem units_natAbs (x : Double) : x.units.natAbs = x.magnitude := by
  unfold units
  split <;> omega

theorem magnitude_pos (h : x.isZero = false) : 0 < x.magnitude := by
  rw [← units_natAbs, Int.natAbs_pos]
  intro hunits
  rw [isZero_iff.2 hunits] at h
  cases h

theorem negative_iff (h : x.isZero = false) : x.negative = true ↔ x.units < 0 := by
  have hpos := magnitude_pos h
  have hunits : x.units = if x.negative then -(x.magnitude : Int) else x.magnitude := rfl
  cases hnegative : x.negative with
  | true =>
    rw [hnegative, if_pos rfl] at hunits
    exact iff_of_true rfl (by omega)
  | false =>
    rw [hnegative, if_neg Bool.false_ne_true] at hunits
    exact iff_of_false Bool.false_ne_true (by omega)

/-- The remainder has the digits of the dividend where its last digit is the lower one, and those of a
number below the divisor's significand elsewhere. -/
theorem exists_digits_mod (hy : y.isZero = false) :
    ∃ s e, s < 2 ^ 53 ∧ x.magnitude % y.magnitude = s * 2 ^ e := by
  have hsignificand : 0 < y.significand := Nat.pos_of_mul_pos_right (magnitude_pos hy)
  rcases Nat.le_total y.shift x.shift with hle | hle
  · obtain ⟨k, hk⟩ := Nat.exists_eq_add_of_le' hle
    refine ⟨x.significand * 2 ^ k % y.significand, y.shift, ?_, ?_⟩
    · exact Nat.lt_trans (Nat.mod_lt _ hsignificand) y.significand_lt
    · show x.significand * 2 ^ x.shift % (y.significand * 2 ^ y.shift) = _
      rw [hk, Nat.pow_add, ← Nat.mul_assoc, Nat.mul_mod_mul_right]
  · obtain ⟨k, hk⟩ := Nat.exists_eq_add_of_le' hle
    refine ⟨x.significand % (y.significand * 2 ^ k), x.shift, ?_, ?_⟩
    · exact Nat.lt_of_le_of_lt (Nat.mod_le _ _) x.significand_lt
    · show x.significand * 2 ^ x.shift % (y.significand * 2 ^ y.shift) = _
      rw [hk, Nat.pow_add, ← Nat.mul_assoc, Nat.mul_mod_mul_right]

theorem units_tmod (x y : Double) : x.units.tmod y.units =
    if x.negative then -((x.magnitude % y.magnitude : Nat) : Int) else (x.magnitude % y.magnitude : Nat) := by
  unfold units
  split <;> split <;> simp only [Int.neg_tmod, Int.tmod_neg, Int.ofNat_tmod]

theorem exists_rem_eq (x : Double) (hy : y.isZero = false) :
    ∃ r, x.rem y = .finite r ∧ r.units = x.units.tmod y.units := by
  obtain ⟨r, hr, hnegative, hmagnitude⟩ :=
    exists_round_eq x.negative (Nat.mod_le x.magnitude y.magnitude)
  obtain ⟨s, e, hs, hmod⟩ := exists_digits_mod (x := x) hy
  rw [hmod, nearestNat_of_digits e hs, ← hmod] at hmagnitude
  refine ⟨r, hr, ?_⟩
  rw [units_tmod, units, hnegative, hmagnitude]

/-- The remainder is corrected just where it is not zero and the signs of the values differ. -/
theorem corrects_iff {r : Double} (hy : y.isZero = false) :
    (!r.isZero && r.negative != y.negative) = true ↔
      r.units ≠ 0 ∧ (r.units < 0 ↔ ¬y.units < 0) := by
  cases hr : r.isZero with
  | true => simp [isZero_iff.1 hr]
  | false =>
    have hne : r.units ≠ 0 := fun h => by simp [isZero_iff.2 h] at hr
    have hsign := negative_iff hr
    have hsign' := negative_iff hy
    rw [Bool.not_false, Bool.true_and, bne_iff_ne, Ne, Bool.eq_iff_iff, hsign, hsign']
    omega

theorem exists_floorMod_eq (x : Double) (hy : y.isZero = false) :
    ∃ z, x.floorMod y = .finite z ∧ z.units = nearest (x.units.fmod y.units) := by
  obtain ⟨r, hr, hunits⟩ := exists_rem_eq x hy
  have hcorrects := corrects_iff (r := r) hy
  unfold floorMod
  rw [hr, Int.fmod_eq_ite, ← hunits]
  dsimp only
  by_cases hcorrect : (!r.isZero && r.negative != y.negative) = true
  · rw [if_pos hcorrect, if_pos (hcorrects.1 hcorrect)]
    -- the sum is between zero and the divisor, so it cannot overflow
    have hbound : (r.units + y.units).natAbs ≤ y.magnitude := by
      have hlt := Nat.mod_lt x.magnitude (magnitude_pos hy)
      have hsize : r.units.natAbs = x.magnitude % y.magnitude := by
        rw [hunits, Int.natAbs_tmod, units_natAbs, units_natAbs]
      have hy' := units_natAbs y
      have hsigns := hcorrects.1 hcorrect
      omega
    exact exists_ofUnits_eq _ hbound
  · rw [if_neg hcorrect, if_neg (mt hcorrects.2 hcorrect)]
    exact ⟨r, rfl, (nearest_units r).symm⟩

/-! ### Integers as doubles -/

variable {a b : Int}

theorem isZero_ofInt_of_ne (h : b ≠ 0) : (ofInt b).isZero = false := by
  rw [← Bool.not_eq_true, isZero_ofInt]
  exact h

theorem exists_floorMod_ofInt_eq (ha : (Number.int a).InRange) (hb : (Number.int b).InRange)
    (hne : b ≠ 0) :
    ∃ z, (ofInt a).floorMod (ofInt b) = .finite z ∧
      z.units = nearest ((nearest a).fmod (nearest b)) * unitsPerOne := by
  obtain ⟨z, hz, hunits⟩ := exists_floorMod_eq (ofInt a) (isZero_ofInt_of_ne hne)
  refine ⟨z, hz, ?_⟩
  rw [hunits, units_ofInt ha, units_ofInt hb, Int.mul_comm, Int.mul_comm (nearest b),
    Int.mul_fmod_mul_of_pos _ _ natCast_unitsPerOne_pos, Int.mul_comm, nearest_mul_unitsPerOne]

/-- Integers that doubles hold have a truncated remainder that a double holds. -/
theorem nearest_tmod (ha : (Number.int a).InRange) (hb : (Number.int b).InRange) (hne : b ≠ 0)
    (ha' : nearest a = a) (hb' : nearest b = b) : nearest (a.tmod b) = a.tmod b := by
  obtain ⟨r, -, hr⟩ := exists_rem_eq (ofInt a) (isZero_ofInt_of_ne hne)
  rw [units_ofInt ha, units_ofInt hb, ha', hb', Int.mul_comm, Int.mul_comm b,
    Int.mul_tmod_mul_of_pos _ _ natCast_unitsPerOne_pos, Int.mul_comm] at hr
  have hround := nearest_units r
  rw [hr, nearest_mul_unitsPerOne] at hround
  exact Int.eq_of_mul_eq_mul_right (Int.ne_of_gt natCast_unitsPerOne_pos) hround

end Double

/-! ## Doubles that stand for integers -/

theorem Extended.round_mul_mul {k : Nat} (negative : Bool) (n d : Nat) (hk : 0 < k) :
    round negative (n * k) (d * k) = round negative n d := by
  have hquotient : n * k / (d * k) = n / d := Nat.mul_div_mul_right n d hk
  have hscale : d * k * Nat.pow 2 ((n / d).log2 - 52) = d * Nat.pow 2 ((n / d).log2 - 52) * k :=
    Nat.mul_right_comm d k _
  unfold round
  dsimp only
  rw [hquotient, hscale, roundQuotient_mul_mul _ _ hk]

namespace Double

variable {x y : Double} {a b k : Int}

/-- The value of a double is an integer. -/
def IsInteger (x : Double) (a : Int) : Prop := x.units = a * unitsPerOne

theorem IsInteger.unique (ha : x.IsInteger a) (hb : x.IsInteger b) : a = b :=
  Int.eq_of_mul_eq_mul_right (Int.ne_of_gt natCast_unitsPerOne_pos) (ha.symm.trans hb)

theorem isInteger_zero_iff : x.IsInteger 0 ↔ x.units = 0 := by
  rw [IsInteger, Int.zero_mul]

theorem IsInteger.magnitude (hx : x.IsInteger a) : x.magnitude = a.natAbs * unitsPerOne := by
  rw [← units_natAbs, hx, Int.natAbs_mul, Int.natAbs_natCast]

theorem units_neg (x : Double) : x.neg.units = -x.units := by
  have hmagnitude : x.neg.magnitude = x.magnitude := rfl
  unfold units
  rw [hmagnitude]
  cases hnegative : x.negative <;> simp [neg, hnegative]

theorem IsInteger.neg (hx : x.IsInteger a) : x.neg.IsInteger (-a) := by
  rw [IsInteger, units_neg, hx, Int.neg_mul]

theorem isInteger_ofInt (h : a.natAbs ≤ 2 ^ 53) : (ofInt a).IsInteger a := by
  have hrange : (Number.int a).InRange := ⟨by omega, by omega⟩
  rw [IsInteger, units_ofInt hrange, nearest_of_natAbs_le h]

/-! ### Sums and products -/

theorem nearest_mul_unitsPerOne_of_le (h : k.natAbs ≤ 2 ^ 53) :
    nearest (k * unitsPerOne) = k * unitsPerOne := by
  rw [nearest_mul_unitsPerOne, nearest_of_natAbs_le h]

theorem exists_add_eq (hx : x.IsInteger a) (hy : y.IsInteger b) (h : (a + b).natAbs ≤ 2 ^ 53) :
    ∃ z, Extended.add (.finite x) (.finite y) = .finite z ∧ z.IsInteger (a + b) := by
  have hsum : x.units + y.units = (a + b) * unitsPerOne := by rw [hx, hy, Int.add_mul]
  obtain ⟨bound, hbound⟩ := exists_units_le_magnitude (n := (a + b).natAbs) (by omega)
  have hsize : (x.units + y.units).natAbs ≤ bound.magnitude := by
    rwa [hsum, Int.natAbs_mul, Int.natAbs_natCast]
  obtain ⟨z, hz, hunits⟩ := exists_ofUnits_eq (x.negative && y.negative) hsize
  refine ⟨z, hz, ?_⟩
  rw [IsInteger, hunits, hsum, nearest_mul_unitsPerOne_of_le h]

/-- The sign of a product is the sign that multiplication gives the result. -/
theorem units_mul (x y : Double) : x.units * y.units =
    if x.negative ^^ y.negative then -((x.magnitude * y.magnitude : Nat) : Int)
    else (x.magnitude * y.magnitude : Nat) := by
  unfold units
  cases x.negative <;> cases y.negative <;> simp

theorem exists_mul_eq (hx : x.IsInteger a) (hy : y.IsInteger b) (h : (a * b).natAbs ≤ 2 ^ 53) :
    ∃ z, Extended.mul (.finite x) (.finite y) = .finite z ∧ z.IsInteger (a * b) := by
  have hsize : x.magnitude * y.magnitude = (a * b).natAbs * unitsPerOne * unitsPerOne := by
    rw [hx.magnitude, hy.magnitude, Int.natAbs_mul]
    ring
  have hmul : Extended.mul (.finite x) (.finite y) =
      Extended.round (x.negative ^^ y.negative) ((a * b).natAbs * unitsPerOne) 1 := by
    have hround := Extended.round_mul_mul (x.negative ^^ y.negative) ((a * b).natAbs * unitsPerOne) 1
      unitsPerOne_pos
    rw [← hround, ← hsize, Nat.one_mul]
    rfl
  obtain ⟨bound, hbound⟩ := exists_units_le_magnitude (n := (a * b).natAbs) (by omega)
  obtain ⟨z, hz, hnegative, hmagnitude⟩ := exists_round_eq (x.negative ^^ y.negative) hbound
  rw [nearestNat_mul_unitsPerOne, nearestNat_of_le h] at hmagnitude
  refine ⟨z, hmul.trans hz, ?_⟩
  -- one unit too many on both sides: there the sign of the product is that of its factors
  have hvalue : z.units * unitsPerOne = x.units * y.units := by
    rw [units_mul, hsize, units, hnegative, hmagnitude]
    split
    · rw [Int.neg_mul, Int.natCast_mul (_ * _)]
    · rw [Int.natCast_mul (_ * _)]
  have hexact : x.units * y.units = a * b * unitsPerOne * unitsPerOne := by
    rw [hx, hy]
    ring
  exact Int.eq_of_mul_eq_mul_right (Int.ne_of_gt natCast_unitsPerOne_pos) (hvalue.trans hexact)

end Double

/-! ## Signed words -/

namespace Double

variable {x : Double} {k : Int}

theorem exists_isInteger (h : x.isWhole = true) : ∃ k, x.IsInteger k := by
  have hmod : x.magnitude % unitsPerOne = 0 := beq_iff_eq.1 h
  have hdiv : x.magnitude = x.magnitude / unitsPerOne * unitsPerOne :=
    (Nat.div_mul_cancel (Nat.dvd_of_mod_eq_zero hmod)).symm
  cases hnegative : x.negative with
  | false =>
    refine ⟨(x.magnitude / unitsPerOne : Nat), ?_⟩
    rw [IsInteger, units, hnegative, if_neg Bool.false_ne_true, ← Int.natCast_mul, ← hdiv]
  | true =>
    refine ⟨-(x.magnitude / unitsPerOne : Nat), ?_⟩
    rw [IsInteger, units, hnegative, if_pos rfl, Int.neg_mul, ← Int.natCast_mul, ← hdiv]

theorem IsInteger.isWhole (h : x.IsInteger k) : x.isWhole = true := by
  rw [Double.isWhole, h.magnitude, beq_iff_eq]
  exact Nat.mul_mod_left _ _

theorem isWhole_iff : x.isWhole = true ↔ ∃ k, x.IsInteger k :=
  ⟨exists_isInteger, fun ⟨_, h⟩ => h.isWhole⟩

/-! ### The bounds -/

theorem units_least : (ofWord Int64.minValue).units = -2 ^ 63 * unitsPerOne := by
  have hrange : (Number.int Int64.minValue.toInt).InRange := by decide
  have hnearest : nearest Int64.minValue.toInt = -2 ^ 63 := by decide +kernel
  rw [ofWord, units_ofInt hrange, hnearest]

theorem units_greatest : (ofWord Int64.maxValue).units = 2 ^ 63 * unitsPerOne := by
  have hrange : (Number.int Int64.maxValue.toInt).InRange := by decide
  -- 63 digits, all of them ones, are rounded up
  have hnearest : nearest Int64.maxValue.toInt = 2 ^ 63 := by decide +kernel
  rw [ofWord, units_ofInt hrange, hnearest]

theorem isWithinWords_iff :
    x.isWithinWords = true ↔ -2 ^ 63 * unitsPerOne ≤ x.units ∧ x.units < 2 ^ 63 * unitsPerOne := by
  rw [isWithinWords, Bool.and_eq_true, order, order, units_least, units_greatest, Int.isLE_compare,
    Ordering.isLT_iff_eq_lt, compare_lt_iff_lt]

theorem IsInteger.isWithinWords_iff (h : x.IsInteger k) : x.isWithinWords = true ↔ IsSigned k := by
  have hpos := natCast_unitsPerOne_pos
  rw [Double.isWithinWords_iff, h, Int.mul_le_mul_iff_of_pos_right hpos,
    Int.mul_lt_mul_right hpos, IsSigned]
  omega

/-! ### The word -/

theorem IsInteger.toInt_toWord (h : x.IsInteger k) (hk : IsSigned k) : x.toWord.toInt = k := by
  obtain ⟨hlow, hhigh⟩ := hk
  have hleast : Int64.minValue.toInt = -9223372036854775808 := by decide
  have hgreatest : Int64.maxValue.toInt = 9223372036854775807 := by decide
  have hquotient : x.units.tdiv unitsPerOne = k := by
    rw [h, Int.mul_tdiv_cancel _ (Int.ne_of_gt natCast_unitsPerOne_pos)]
  have hword : x.toWord = .ofInt k := by
    rw [toWord, hquotient, Int64.ofIntClamp, dif_pos (hleast ▸ hlow), dif_pos (hgreatest ▸ hhigh),
      Int64.ofIntLE]
  rw [hword, Int64.toInt_ofInt_of_le (by omega) (by omega)]

end Double
end JsonRules
