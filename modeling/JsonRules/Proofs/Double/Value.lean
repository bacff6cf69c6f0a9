import JsonRules.Proofs.Double.Exact

/-!
# Doubles by value

A value that is not zero is the value of one double only (`Double.eq_of_units_eq`). `Extended.units?` is the
value of a result that is finite. A sum or a product is told by the values of what goes into it, as the sign
of a zero decides nothing but the sign of another zero: a loop that adds or multiplies may start over at any
point from the value that it has reached (`Extended.Accumulates`).
-/

namespace JsonRules
namespace Double

variable {x y : Double}

theorem shift_le_of_magnitude_eq (h : x.magnitude = y.magnitude) : y.shift ≤ x.shift := by
  -- with a greater shift on the other side the significand would have 54 digits
  by_contra hlt
  obtain ⟨k, hk⟩ := Nat.exists_eq_add_of_lt (Nat.lt_of_not_le hlt)
  have hnormal : 2 ^ 52 ≤ y.significand := y.normal.resolve_left (by omega)
  have hscale : y.significand * 2 ^ y.shift = y.significand * 2 ^ (k + 1) * 2 ^ x.shift := by
    rw [hk, Nat.add_assoc, Nat.pow_add, Nat.mul_comm (2 ^ x.shift), Nat.mul_assoc]
  have hsignificand : x.significand = y.significand * 2 ^ (k + 1) :=
    Nat.eq_of_mul_eq_mul_right (Nat.two_pow_pos x.shift) (h.trans hscale)
  have hlarge : 2 ^ 52 * 2 ≤ x.significand := by
    rw [hsignificand]
    exact Nat.mul_le_mul hnormal (Nat.le_self_pow (Nat.succ_ne_zero k) 2)
  have hsmall : x.significand < 2 ^ 53 := x.significand_lt
  omega

theorem eq_of_magnitude_eq (hnegative : x.negative = y.negative) (h : x.magnitude = y.magnitude) : x = y := by
  have hshift : x.shift = y.shift :=
    Nat.le_antisymm (shift_le_of_magnitude_eq h.symm) (shift_le_of_magnitude_eq h)
  have hsignificand : x.significand = y.significand := by
    unfold magnitude at h
    rw [hshift] at h
    exact Nat.eq_of_mul_eq_mul_right (Nat.two_pow_pos y.shift) h
  obtain ⟨negative, significand, shift, hlt, hle, hnormal⟩ := x
  obtain ⟨negative', significand', shift', hlt', hle', hnormal'⟩ := y
  obtain rfl : negative = negative' := hnegative
  obtain rfl : significand = significand' := hsignificand
  obtain rfl : shift = shift' := hshift
  rfl

theorem isZero_eq_of_units_eq (h : x.units = y.units) : x.isZero = y.isZero := by
  rw [Bool.eq_iff_iff, isZero_iff, isZero_iff, h]

/-- Only the two zeros have a value in common. -/
theorem eq_of_units_eq (h : x.units = y.units) (hx : x.isZero = false) : x = y := by
  have hy : y.isZero = false := (isZero_eq_of_units_eq h).symm.trans hx
  refine eq_of_magnitude_eq ?_ ?_
  · rw [Bool.eq_iff_iff, negative_iff hx, negative_iff hy, h]
  · rw [← units_natAbs, ← units_natAbs, h]

theorem units_zero (negative : Bool) : (zero negative).units = 0 := isZero_iff.1 rfl

theorem magnitude_of_isZero (h : x.isZero = true) : x.magnitude = 0 := by
  rw [← units_natAbs, isZero_iff.1 h, Int.natAbs_zero]

theorem negative_ofInt_one : (ofInt 1).negative = false := by
  have hunits : (ofInt 1).units = 1 * unitsPerOne := isInteger_ofInt (by decide)
  have hpos := natCast_unitsPerOne_pos
  have hnonneg : ¬(ofInt 1).units < 0 := by omega
  rw [← negative_iff (isZero_ofInt_of_ne (by decide)), Bool.not_eq_true] at hnonneg
  exact hnonneg

end Double

namespace Extended

variable {x y : Double}

/-- The value in units, if it is finite. -/
def units? : Extended → Option Int
  | .finite x => some x.units
  | .infinite _ => none
  | .nan => none

theorem units?_eq_some {t : Extended} {u : Int} : t.units? = some u ↔ ∃ x, t = .finite x ∧ x.units = u := by
  cases t with
  | finite x => simp [units?]
  | infinite | nan => simp [units?]

theorem round_zero (negative : Bool) (d : Nat) : round negative 0 d = .finite (.zero negative) := by
  have hquotient : roundQuotient 0 (d * Nat.pow 2 0) = 0 := by
    unfold roundQuotient
    dsimp only
    rw [Nat.zero_div, Nat.zero_mod, if_pos (by omega)]
  unfold round
  dsimp only
  rw [Nat.zero_div, Nat.log2_zero, Nat.zero_sub, hquotient]
  rfl

/-- An operation that is carried out over and over, from a number that changes nothing: it depends on the
value of its first operand and gives nothing finite for one that has no value. -/
structure Accumulates (op : Extended → Extended → Extended) (start : Int) : Prop where
  neutral : ∀ x, (op (.finite (.ofInt start)) (.finite x)).units? = some x.units
  congr : ∀ {x y : Double}, x.units = y.units → ∀ w, (op (.finite x) w).units? = (op (.finite y) w).units?
  absorb : ∀ {t : Extended}, t.units? = none → ∀ w, (op t w).units? = none

/-! ### Sums -/

theorem units?_ofUnits (u : Int) (a b : Bool) : (ofUnits u a).units? = (ofUnits u b).units? := by
  unfold ofUnits
  by_cases hu : u = 0
  · rw [if_pos hu, if_pos hu, units?, units?, Double.units_zero, Double.units_zero]
  · rw [if_neg hu, if_neg hu]

theorem units?_add_zero (x : Double) : (add (.finite (.ofInt 0)) (.finite x)).units? = some x.units := by
  have hzero : (Double.ofInt 0).units = 0 := Double.isInteger_zero_iff.1 (Double.isInteger_ofInt (by decide))
  obtain ⟨z, hz, hunits⟩ := Double.exists_ofUnits_eq ((Double.ofInt 0).negative && x.negative)
    (Nat.le_of_eq (Double.units_natAbs x))
  rw [Double.nearest_units] at hunits
  rw [add, hzero, Int.zero_add, hz, units?, hunits]

theorem units?_add_congr (h : x.units = y.units) (w : Extended) :
    (add (.finite x) w).units? = (add (.finite y) w).units? := by
  cases w with
  | finite w =>
    rw [add, add, h]
    exact units?_ofUnits _ _ _
  | infinite | nan => rfl

theorem units?_add_of_none {t : Extended} (h : t.units? = none) (w : Extended) : (add t w).units? = none := by
  cases t with
  | finite => cases h
  | nan => cases w <;> rfl
  | infinite s =>
    cases w with
    | finite | nan => rfl
    | infinite t =>
      rw [add]
      split <;> rfl

theorem accumulates_add : Accumulates add 0 := ⟨units?_add_zero, units?_add_congr, units?_add_of_none⟩

/-! ### Products -/

theorem units?_mul_one (x : Double) : (mul (.finite (.ofInt 1)) (.finite x)).units? = some x.units := by
  have hone : (Double.ofInt 1).IsInteger 1 := Double.isInteger_ofInt (by decide)
  have hproduct : (Double.ofInt 1).magnitude * x.magnitude = x.magnitude * unitsPerOne := by
    rw [hone.magnitude, Int.natAbs_one, Nat.one_mul, Nat.mul_comm]
  have hround := round_mul_mul x.negative x.magnitude 1 unitsPerOne_pos
  obtain ⟨z, hz, hnegative, hmagnitude⟩ := Double.exists_round_eq x.negative (Nat.le_refl x.magnitude)
  rw [Double.nearestNat_magnitude] at hmagnitude
  rw [Nat.one_mul, hz, Double.eq_of_magnitude_eq hnegative hmagnitude] at hround
  rw [mul, Double.negative_ofInt_one, hproduct, Bool.false_xor, hround, units?]

theorem units?_mul_congr (h : x.units = y.units) (w : Extended) :
    (mul (.finite x) w).units? = (mul (.finite y) w).units? := by
  cases hx : x.isZero with
  | false => rw [Double.eq_of_units_eq h hx]
  | true =>
    have hy : y.isZero = true := (Double.isZero_eq_of_units_eq h).symm.trans hx
    cases w with
    | finite w =>
      rw [mul, mul, Double.magnitude_of_isZero hx, Double.magnitude_of_isZero hy, Nat.zero_mul, round_zero,
        round_zero, units?, units?, Double.units_zero, Double.units_zero]
    | infinite t => rw [mul, mul, if_pos hx, if_pos hy]
    | nan => rfl

theorem units?_mul_of_none {t : Extended} (h : t.units? = none) (w : Extended) : (mul t w).units? = none := by
  cases t with
  | finite => cases h
  | nan => cases w <;> rfl
  | infinite s =>
    cases w with
    | infinite | nan => rfl
    | finite w =>
      rw [mul]
      split <;> rfl

theorem accumulates_mul : Accumulates mul 1 := ⟨units?_mul_one, units?_mul_congr, units?_mul_of_none⟩

end Extended
end JsonRules
