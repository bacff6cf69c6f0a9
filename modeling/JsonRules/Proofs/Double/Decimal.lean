import JsonRules.Double.Decimal
import JsonRules.Proofs.Double.Value

/-!
# Decimals and doubles

Reading a decimal is rounding its exact value (`Extended.ofDecimal_eq_round`): the bounds beyond which no
power of ten is computed change nothing. So zeros at the end of the digits may go into the exponent
(`Extended.ofDecimal_succ`), and the shortest decimal of a double reads as that double
(`Double.ofDecimal_shortest`), also where the search for it would end without one: all digits of a double read
as the double too.
-/

namespace JsonRules
namespace Extended

variable {n d : Nat} {negative : Bool}

/-! ### Beyond the doubles -/

theorem round_of_large (h : 2098 ≤ (n / d).log2) : round negative n d = .infinite negative := by
  unfold round ofParts
  dsimp only
  split
  · rw [dif_neg fun hparts => by omega]
  · rw [dif_neg fun hparts => by omega]

/-- What is less than half a unit is rounded to zero. -/
theorem round_of_small (h : 2 * n < d) : round negative n d = .finite (.zero negative) := by
  have hquotient : n / d = 0 := Nat.div_eq_of_lt (by omega)
  have hsmall : roundQuotient n (d * Nat.pow 2 0) = 0 := by
    have hd : d * Nat.pow 2 0 = d := Nat.mul_one d
    unfold roundQuotient
    dsimp only
    rw [hd, hquotient, Nat.mod_eq_of_lt (by omega), if_pos (.inl h)]
  unfold round
  dsimp only
  rw [hquotient, Nat.log2_zero, Nat.zero_sub, hsmall]
  rfl

theorem two_pow_le_ten_pow (k : Nat) : 2 ^ (3 * k) ≤ 10 ^ k := by
  rw [Nat.pow_mul]
  exact Nat.pow_le_pow_left (by decide) k

theorem round_of_large_exponent {digits e : Nat} (hdigits : digits ≠ 0) (he : 400 < e) :
    round negative (digits * 10 ^ e * unitsPerOne) 1 = .infinite negative := by
  obtain ⟨unit, hunit, hpow⟩ := Double.exists_unitsPerOne_eq
  apply round_of_large
  have hten : 2 ^ (3 * e) ≤ digits * 10 ^ e :=
    Nat.le_trans (two_pow_le_ten_pow e) (Nat.le_mul_of_pos_left _ (Nat.pos_of_ne_zero hdigits))
  have hsize : 2 ^ (3 * e + unit) ≤ digits * 10 ^ e * unitsPerOne := by
    rw [hpow, Nat.pow_add]
    exact Nat.mul_le_mul_right _ hten
  have hlog : 3 * e + unit ≤ (digits * 10 ^ e * unitsPerOne).log2 :=
    (Nat.le_log2 (Nat.ne_of_gt (Nat.lt_of_lt_of_le (Nat.two_pow_pos _) hsize))).2 hsize
  rw [Nat.div_one]
  omega

theorem round_of_small_exponent {digits e : Nat} (he : digits.log2 + 400 < e) :
    round negative (digits * unitsPerOne) (10 ^ e) = .finite (.zero negative) := by
  obtain ⟨unit, hunit, hpow⟩ := Double.exists_unitsPerOne_eq
  apply round_of_small
  calc 2 * (digits * unitsPerOne) < 2 * (2 ^ (digits.log2 + 1) * 2 ^ unit) := by
        rw [hpow]
        exact Nat.mul_lt_mul_of_pos_left
          (Nat.mul_lt_mul_of_pos_right Nat.lt_log2_self (Nat.two_pow_pos unit)) Nat.two_pos
    _ = 2 ^ (digits.log2 + unit + 2) := by ring
    _ ≤ 2 ^ (3 * e) := Nat.pow_le_pow_right Nat.two_pos (by omega)
    _ ≤ 10 ^ e := two_pow_le_ten_pow e

/-! ### Reading -/

theorem ofDecimal_mk (negative : Bool) (digits : Nat) (e : Int) : ofDecimal negative ⟨digits, e⟩ =
    if digits = 0 then .finite (.zero negative)
    else if 400 < e then .infinite negative
    else if e < -(digits.log2 + 400 : Nat) then .finite (.zero negative)
    else round negative (Decimal.inUnits ⟨digits, e⟩).1 (Decimal.inUnits ⟨digits, e⟩).2 := rfl

theorem ofDecimal_eq_round (negative : Bool) (d : Decimal) :
    ofDecimal negative d = round negative d.inUnits.1 d.inUnits.2 := by
  obtain ⟨digits, exponent⟩ := d
  rw [ofDecimal_mk]
  by_cases hzero : digits = 0
  · subst hzero
    rw [if_pos rfl]
    cases exponent with
    | ofNat e =>
      have hunits : (Decimal.inUnits ⟨0, .ofNat e⟩).1 = 0 * 10 ^ e * unitsPerOne := rfl
      rw [hunits, Nat.zero_mul, Nat.zero_mul, round_zero]
    | negSucc e =>
      have hunits : (Decimal.inUnits ⟨0, .negSucc e⟩).1 = 0 * unitsPerOne := rfl
      rw [hunits, Nat.zero_mul, round_zero]
  · rw [if_neg hzero]
    cases exponent with
    | ofNat e =>
      have hcast : Int.ofNat e = e := rfl
      by_cases hlarge : 400 < e
      · rw [if_pos (by omega)]
        exact (round_of_large_exponent hzero hlarge).symm
      · rw [if_neg (by omega), if_neg (by omega)]
    | negSucc e =>
      by_cases hsmall : digits.log2 + 400 < e + 1
      · rw [if_neg (by omega), if_pos (by omega)]
        exact (round_of_small_exponent hsmall).symm
      · rw [if_neg (by omega), if_neg (by omega)]

/-- A zero at the end of the digits may go into the exponent. -/
theorem ofDecimal_succ (negative : Bool) (digits : Nat) (e : Int) :
    ofDecimal negative ⟨digits * 10, e⟩ = ofDecimal negative ⟨digits, e + 1⟩ := by
  rw [ofDecimal_eq_round, ofDecimal_eq_round]
  match e with
  | .ofNat e =>
    have hdigits : digits * 10 * 10 ^ e * unitsPerOne = digits * 10 ^ (e + 1) * unitsPerOne := by ring
    exact congrArg (round negative · 1) hdigits
  | .negSucc 0 =>
    have hscale := round_mul_mul negative (digits * 10 ^ 0 * unitsPerOne) 1 (k := 10) (by decide)
    have hdigits : digits * 10 ^ 0 * unitsPerOne * 10 = digits * 10 * unitsPerOne := by ring
    rw [hdigits] at hscale
    exact hscale
  | .negSucc (e + 1) =>
    have hscale := round_mul_mul negative (digits * unitsPerOne) (10 ^ (e + 1)) (k := 10) (by decide)
    have hdigits : digits * unitsPerOne * 10 = digits * 10 * unitsPerOne := by ring
    rw [hdigits] at hscale
    exact hscale

theorem ofDecimal_mul_pow (negative : Bool) (digits k : Nat) (e : Int) :
    ofDecimal negative ⟨digits * 10 ^ k, e⟩ = ofDecimal negative ⟨digits, e + k⟩ := by
  induction k generalizing e with
  | zero => rw [Nat.pow_zero, Nat.mul_one, Int.natCast_zero, Int.add_zero]
  | succ k ih =>
    have hexponent : e + 1 + k = e + (k + 1 : Nat) := by omega
    rw [Nat.pow_succ, ← Nat.mul_assoc, ofDecimal_succ, ih, hexponent]

theorem ofDecimal_stripZeros (negative : Bool) (fuel : Nat) (d : Decimal) :
    ofDecimal negative (d.stripZeros fuel) = ofDecimal negative d := by
  induction fuel generalizing d with
  | zero => rfl
  | succ fuel ih =>
    rw [Decimal.stripZeros]
    split
    · rename_i hzero
      have hdigits : d.digits / 10 * 10 = d.digits := Nat.div_mul_cancel (Nat.dvd_of_mod_eq_zero hzero.1)
      rw [ih, ← ofDecimal_succ, hdigits]
    · rfl

theorem round_magnitude (x : Double) : round x.negative x.magnitude 1 = .finite x := by
  obtain ⟨z, hz, hnegative, hmagnitude⟩ := Double.exists_round_eq x.negative (Nat.le_refl x.magnitude)
  rw [Double.nearestNat_magnitude] at hmagnitude
  rw [hz, Double.eq_of_magnitude_eq hnegative hmagnitude]

end Extended

namespace Double

variable {x : Double} {tie : Tie} {d : Decimal}

theorem readsAs_iff : x.readsAs d = true ↔ Extended.ofDecimal x.negative d = .finite x :=
  decide_eq_true_iff

/-! ### The shortest decimal -/

/-- As many fives as the unit has twos make tens. -/
theorem ofDecimal_of_fives {k : Nat} (hk : 0 < k) (hunit : unitsPerOne = 2 ^ k) :
    Extended.ofDecimal x.negative ⟨x.magnitude * Nat.pow 5 k, -(k : Int)⟩ = .finite x := by
  obtain ⟨k, rfl⟩ := Nat.exists_eq_add_of_lt hk
  rw [Nat.zero_add] at hunit ⊢
  have hunits : (Decimal.mk (x.magnitude * Nat.pow 5 (k + 1)) (-((k + 1 : Nat) : Int))).inUnits =
      (x.magnitude * 5 ^ (k + 1) * unitsPerOne, 10 ^ (k + 1)) := rfl
  have htens : x.magnitude * 5 ^ (k + 1) * unitsPerOne = x.magnitude * 10 ^ (k + 1) := by
    rw [hunit, Nat.mul_assoc, ← Nat.mul_pow]
  have hscale := Extended.round_mul_mul x.negative x.magnitude 1 (Nat.pow_pos (n := k + 1) (a := 10) (by decide))
  rw [Nat.one_mul] at hscale
  rw [Extended.ofDecimal_eq_round, hunits, htens, hscale, Extended.round_magnitude]

theorem exact_eq {k : Nat} (hk : k = 1074) (x : Double) : x.exact = ⟨x.magnitude * Nat.pow 5 k, -(k : Int)⟩ := by
  have hexponent : (-1074 : Int) = -(k : Int) := by omega
  rw [exact, hexponent, ← hk]

theorem readsAs_exact (x : Double) : x.readsAs x.exact = true := by
  obtain ⟨k, hk, hunit⟩ := exists_unitsPerOne_eq
  rw [readsAs_iff, exact_eq hk]
  exact ofDecimal_of_fives (by omega) hunit

theorem readsAs_of_either {a b : Decimal}
    (h : (if x.readsAs a then some a else if x.readsAs b then some b else none) = some d) :
    x.readsAs d = true := by
  split at h
  · cases h
    assumption
  · split at h
    · cases h
      assumption
    · cases h

theorem readsAs_of_neighbour? {e : Int} (h : x.neighbour? tie e = some d) : x.readsAs d = true :=
  readsAs_of_either h

/-- The shortest decimal of a double reads as the double. -/
theorem ofDecimal_shortest (tie : Tie) (x : Double) :
    Extended.ofDecimal x.negative (x.shortest tie) = .finite x := by
  unfold shortest
  split
  · rename_i hzero
    rw [eq_zero_of_isZero hzero]
    rfl
  · rw [Extended.ofDecimal_stripZeros, ← readsAs_iff]
    cases hfound : (List.range 17).findSome? fun (i : Nat) => x.neighbour? tie (x.leadingExponent - i) with
    | none =>
      rw [Option.getD_none]
      exact readsAs_exact x
    | some d =>
      obtain ⟨i, -, hi⟩ := List.exists_of_findSome?_eq_some hfound
      exact readsAs_of_neighbour? hi

/-- Only for a zero there is no digit but zero. -/
theorem shortest_of_digits_eq_zero (h : (x.shortest tie).digits = 0) : x.shortest tie = ⟨0, 0⟩ := by
  have hread := ofDecimal_shortest tie x
  have hzero : x.isZero = true := by
    unfold Extended.ofDecimal at hread
    rw [if_pos h] at hread
    rw [← Extended.finite.inj hread]
    rfl
  unfold shortest
  rw [if_pos hzero]

end Double
end JsonRules
