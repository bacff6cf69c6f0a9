import JsonRules.Double
import JsonRules.Json
import Mathlib.Algebra.Order.Ring.Int
import Mathlib.Tactic.Ring

/-!
# Rounding

A double is a zero if it is one of the two zeros, and rounding gives a zero only for what is below half a
unit: no integer but zero has a zero for its nearest double.

`Double.nearest` rounds an integer to 53 binary digits. It is what `Extended.round` does to a whole
number of units (`exists_round_eq`) and, as rounding and scaling by a power of two commute
(`nearestNat_mul_pow`), also what becomes of an integer that counts as a double (`units_ofInt`).
Rounding keeps the order (`nearest_mono`) and leaves alone what 53 digits are enough for
(`nearestNat_of_digits`), such as the size of a double.
-/

namespace JsonRules

/-! ## Which numbers are zero -/

theorem unitsPerOne_pos : 0 < unitsPerOne := by decide +kernel

theorem natCast_unitsPerOne_pos : (0 : Int) < unitsPerOne := Int.natCast_pos.2 unitsPerOne_pos

theorem le_roundQuotient (n d : Nat) : n / d ≤ roundQuotient n d := by
  unfold roundQuotient
  dsimp only
  split
  · exact Nat.le_refl _
  · exact Nat.le_succ _

/-- What is a unit at least is not rounded to a zero. -/
theorem Extended.isZero_of_round_eq {negative : Bool} {n d : Nat} {x : Double} (hd : 0 < d)
    (hn : d ≤ n) (h : round negative n d = .finite x) : x.isZero = false := by
  have hquotient : n / d ≠ 0 := Nat.ne_of_gt (Nat.div_pos hn hd)
  have hpow : Nat.pow 2 ((n / d).log2 - 52) ≤ n / d :=
    Nat.le_trans (Nat.pow_le_pow_right (by decide) (Nat.sub_le _ _)) (Nat.log2_self_le hquotient)
  have hscale : d * Nat.pow 2 ((n / d).log2 - 52) ≤ n :=
    Nat.le_trans (Nat.mul_le_mul_left d hpow) (Nat.mul_div_le n d)
  have hsignificand : 0 < roundQuotient n (d * Nat.pow 2 ((n / d).log2 - 52)) :=
    Nat.lt_of_lt_of_le (Nat.div_pos hscale (Nat.mul_pos hd (Nat.two_pow_pos _)))
      (le_roundQuotient _ _)
  have hparts : ∀ {significand shift : Nat}, 0 < significand →
      ofParts negative significand shift = .finite x → x.isZero = false := by
    intro significand shift hpos hx
    unfold ofParts at hx
    split at hx
    · cases hx
      exact beq_eq_false_iff_ne.2 (Nat.ne_of_gt hpos)
    · cases hx
  unfold round at h
  dsimp only at h
  split at h
  · exact hparts (by decide) h
  · exact hparts hsignificand h

namespace Double

theorem isZero_iff {x : Double} : x.isZero = true ↔ x.units = 0 := by
  have hpow : Nat.pow 2 x.shift ≠ 0 := Nat.ne_of_gt (Nat.two_pow_pos x.shift)
  have hmagnitude : x.magnitude = 0 ↔ x.significand = 0 := by
    rw [magnitude, Nat.mul_eq_zero, or_iff_left hpow]
  rw [isZero, beq_iff_eq, ← hmagnitude, units]
  split <;> omega

theorem eq_zero_of_isZero {x : Double} (h : x.isZero = true) : x = zero x.negative := by
  obtain ⟨negative, significand, shift, hlt, hle, hnormal⟩ := x
  obtain rfl : significand = 0 := eq_of_beq h
  obtain rfl | hnormal := hnormal
  · rfl
  · exact absurd hnormal (by decide)

theorem isZero_ofInt {n : Int} : (ofInt n).isZero = true ↔ n = 0 := by
  refine ⟨fun h => Decidable.byContradiction fun hn => ?_, ?_⟩
  · have hunits : 0 < n.natAbs * unitsPerOne := Nat.mul_pos (Int.natAbs_pos.2 hn) unitsPerOne_pos
    rcases ofInt_cases n with hround | hlargest
    · rw [Extended.isZero_of_round_eq Nat.one_pos hunits hround] at h
      cases h
    · rw [hlargest] at h
      cases h
  · rintro rfl
    decide +kernel

end Double

/-! ## Rounding integers -/

/-! ### Quotients -/

variable {n m d : Nat}

theorem roundQuotient_le_succ (n d : Nat) : roundQuotient n d ≤ n / d + 1 := by
  unfold roundQuotient
  dsimp only
  split <;> omega

theorem roundQuotient_mono (d : Nat) (h : n ≤ m) : roundQuotient n d ≤ roundQuotient m d := by
  have hquotient : n / d ≤ m / d := Nat.div_le_div_right h
  rcases Nat.lt_or_eq_of_le hquotient with hlt | heq
  · have hn := roundQuotient_le_succ n d
    have hm := le_roundQuotient m d
    omega
  · have hremainder : n % d ≤ m % d := by
      have hn := Nat.div_add_mod n d
      have hm := Nat.div_add_mod m d
      rw [heq] at hn
      omega
    unfold roundQuotient
    dsimp only
    rw [heq]
    split <;> split <;> omega

theorem roundQuotient_mul_self (q : Nat) (hd : 0 < d) : roundQuotient (q * d) d = q := by
  have hquotient : q * d / d = q := Nat.mul_div_cancel q hd
  have hremainder : q * d % d = 0 := Nat.mul_mod_left q d
  unfold roundQuotient
  dsimp only
  rw [hquotient, hremainder, if_pos (.inl hd)]

theorem roundQuotient_mul_mul {k : Nat} (n d : Nat) (hk : 0 < k) :
    roundQuotient (n * k) (d * k) = roundQuotient n d := by
  have hquotient : n * k / (d * k) = n / d := Nat.mul_div_mul_right n d hk
  have hremainder : 2 * (n * k % (d * k)) = 2 * (n % d) * k := by
    rw [Nat.mul_mod_mul_right]
    ring
  have hlt : 2 * (n % d) * k < d * k ↔ 2 * (n % d) < d := Nat.mul_lt_mul_right hk
  have heq : 2 * (n % d) * k = d * k ↔ 2 * (n % d) = d := Nat.mul_left_inj (Nat.ne_of_gt hk)
  unfold roundQuotient
  dsimp only
  rw [hquotient, hremainder]
  simp only [hlt, heq]

namespace Double

/-! ### Natural numbers of 53 digits -/

/-- The natural number nearest to `n` that has 53 binary digits and zeros behind them; a half goes to
the even one. -/
def nearestNat (n : Nat) : Nat := roundQuotient n (2 ^ (n.log2 - 52)) * 2 ^ (n.log2 - 52)

theorem lt_pow_digits (n : Nat) : n < 2 ^ (53 + (n.log2 - 52)) :=
  Nat.lt_of_lt_of_le Nat.lt_log2_self (Nat.pow_le_pow_right Nat.two_pos (by omega))

theorem pow_digits_le (h : 0 < n.log2 - 52) : 2 ^ (52 + (n.log2 - 52)) ≤ n := by
  have hn : n ≠ 0 := by
    rintro rfl
    simp at h
  have hexponent : 52 + (n.log2 - 52) = n.log2 := by omega
  rw [hexponent]
  exact Nat.log2_self_le hn

theorem log2_mono (h : n ≤ m) : n.log2 ≤ m.log2 := by
  by_cases hn : n = 0
  · rw [hn]
    exact Nat.zero_le _
  · have hm : m ≠ 0 := by omega
    exact (Nat.le_log2 hm).2 (Nat.le_trans (Nat.log2_self_le hn) h)

theorem div_pow_lt (n : Nat) : n / 2 ^ (n.log2 - 52) < 2 ^ 53 := by
  rw [Nat.div_lt_iff_lt_mul (Nat.two_pow_pos _), ← Nat.pow_add]
  exact lt_pow_digits n

theorem le_div_pow (h : 0 < n.log2 - 52) : 2 ^ 52 ≤ n / 2 ^ (n.log2 - 52) := by
  rw [Nat.le_div_iff_mul_le (Nat.two_pow_pos _), ← Nat.pow_add]
  exact pow_digits_le h

theorem nearestNat_mono (h : n ≤ m) : nearestNat n ≤ nearestNat m := by
  have hlog := log2_mono h
  rcases Nat.lt_or_eq_of_le (Nat.sub_le_sub_right hlog 52) with hlt | heq
  · -- more digits: what lies between is a power of two
    have hpow : 53 + (n.log2 - 52) ≤ 52 + (m.log2 - 52) := by omega
    have hn := roundQuotient_le_succ n (2 ^ (n.log2 - 52))
    have hn' := div_pow_lt n
    have hm := le_roundQuotient m (2 ^ (m.log2 - 52))
    have hm' := le_div_pow (n := m) (by omega)
    calc nearestNat n ≤ 2 ^ 53 * 2 ^ (n.log2 - 52) := Nat.mul_le_mul_right _ (by omega)
      _ = 2 ^ (53 + (n.log2 - 52)) := (Nat.pow_add 2 53 _).symm
      _ ≤ 2 ^ (52 + (m.log2 - 52)) := Nat.pow_le_pow_right Nat.two_pos hpow
      _ = 2 ^ 52 * 2 ^ (m.log2 - 52) := Nat.pow_add 2 52 _
      _ ≤ nearestNat m := Nat.mul_le_mul_right _ (by omega)
  · unfold nearestNat
    rw [heq]
    exact Nat.mul_le_mul_right _ (roundQuotient_mono _ h)

/-- A number that 53 digits are enough for is not rounded. -/
theorem nearestNat_of_digits {s : Nat} (e : Nat) (hs : s < 2 ^ 53) : nearestNat (s * 2 ^ e) = s * 2 ^ e := by
  have hle : (s * 2 ^ e).log2 - 52 ≤ e := by
    by_contra hlt
    have hlow := pow_digits_le (n := s * 2 ^ e) (by omega)
    have hhigh : s * 2 ^ e < 2 ^ (53 + e) := by
      rw [Nat.pow_add]
      exact Nat.mul_lt_mul_of_pos_right hs (Nat.two_pow_pos e)
    have hpow : 2 ^ (53 + e) ≤ 2 ^ (52 + ((s * 2 ^ e).log2 - 52)) :=
      Nat.pow_le_pow_right Nat.two_pos (by omega)
    omega
  obtain ⟨f, hf⟩ := Nat.exists_eq_add_of_le' hle
  have hsplit : s * 2 ^ e = s * 2 ^ f * 2 ^ ((s * 2 ^ e).log2 - 52) := by
    rw [Nat.mul_assoc, ← Nat.pow_add, ← hf]
  unfold nearestNat
  generalize (s * 2 ^ e).log2 - 52 = k at hsplit
  rw [hsplit, roundQuotient_mul_self _ (Nat.two_pow_pos k)]

theorem nearestNat_of_lt (h : n < 2 ^ 53) : nearestNat n = n := by
  have hdigits := nearestNat_of_digits 0 h
  rwa [Nat.pow_zero, Nat.mul_one] at hdigits

theorem nearestNat_of_le (h : n ≤ 2 ^ 53) : nearestNat n = n := by
  rcases Nat.lt_or_eq_of_le h with hlt | rfl
  · exact nearestNat_of_lt hlt
  · exact nearestNat_of_digits (s := 1) 53 (by decide)

theorem nearestNat_magnitude (x : Double) : nearestNat x.magnitude = x.magnitude :=
  nearestNat_of_digits x.shift x.significand_lt

theorem log2_mul_pow (k : Nat) (hn : n ≠ 0) : (n * 2 ^ k).log2 = n.log2 + k := by
  induction k with
  | zero => rw [Nat.pow_zero, Nat.mul_one, Nat.add_zero]
  | succ k ih =>
    have hne : n * 2 ^ k ≠ 0 := Nat.mul_ne_zero hn (Nat.ne_of_gt (Nat.two_pow_pos k))
    have hdouble : n * 2 ^ (k + 1) = 2 * (n * 2 ^ k) := by ring
    rw [hdouble, Nat.log2_two_mul hne, ih, Nat.add_assoc]

theorem nearestNat_mul_pow (n k : Nat) : nearestNat (n * 2 ^ k) = nearestNat n * 2 ^ k := by
  rcases Nat.lt_or_ge n (2 ^ 53) with hlt | hge
  · rw [nearestNat_of_lt hlt, nearestNat_of_digits k hlt]
  · have hn : n ≠ 0 := by
      have hpos := Nat.two_pow_pos 53
      omega
    have hlog : 53 ≤ n.log2 := (Nat.le_log2 hn).2 hge
    have hexponent : n.log2 + k - 52 = n.log2 - 52 + k := by omega
    unfold nearestNat
    rw [log2_mul_pow k hn, hexponent, Nat.pow_add, roundQuotient_mul_mul _ _ (Nat.two_pow_pos k),
      Nat.mul_assoc]

/-! ### Rounding a number of units -/

theorem lt_of_pow_le_magnitude {k : Nat} {y : Double} (h : 2 ^ k ≤ y.magnitude) : k < 53 + y.shift := by
  have hlt : 2 ^ k < 2 ^ (53 + y.shift) := by
    rw [Nat.pow_add]
    exact Nat.lt_of_le_of_lt h (Nat.mul_lt_mul_of_pos_right y.significand_lt (Nat.two_pow_pos _))
  exact (Nat.pow_lt_pow_iff_right Nat.one_lt_two).1 hlt

theorem ofParts_eq {s e : Nat} (negative : Bool) (hs : s < 2 ^ 53) (he : e ≤ 2045)
    (hnormal : e = 0 ∨ 2 ^ 52 ≤ s) :
    Extended.ofParts negative s e = .finite ⟨negative, s, e, hs, he, hnormal⟩ :=
  dif_pos ⟨hs, he, hnormal⟩

/-- A number of units that is not beyond a double has a nearest double. -/
theorem exists_round_eq {y : Double} (negative : Bool) (h : n ≤ y.magnitude) :
    ∃ x, Extended.round negative n 1 = .finite x ∧ x.negative = negative ∧
      x.magnitude = nearestNat n := by
  have hle : nearestNat n ≤ y.magnitude := nearestNat_magnitude y ▸ nearestNat_mono h
  have hlow : n.log2 - 52 = 0 ∨ 2 ^ 52 ≤ roundQuotient n (2 ^ (n.log2 - 52)) := by
    rcases Nat.eq_zero_or_pos (n.log2 - 52) with hzero | hpos
    · exact .inl hzero
    · exact .inr (Nat.le_trans (le_div_pow hpos) (le_roundQuotient _ _))
  have hhigh : roundQuotient n (2 ^ (n.log2 - 52)) ≤ 2 ^ 53 :=
    Nat.le_trans (roundQuotient_le_succ _ _) (div_pow_lt n)
  have hround : Extended.round negative n 1 =
      if roundQuotient n (2 ^ (n.log2 - 52)) = 2 ^ 53 then
        Extended.ofParts negative (2 ^ 52) (n.log2 - 52 + 1)
      else Extended.ofParts negative (roundQuotient n (2 ^ (n.log2 - 52))) (n.log2 - 52) := by
    unfold Extended.round
    dsimp only
    rw [Nat.div_one, Nat.one_mul]
    rfl
  have hshift := y.shift_le
  unfold nearestNat at hle ⊢
  rw [hround]
  generalize roundQuotient n (2 ^ (n.log2 - 52)) = q at *
  generalize n.log2 - 52 = k at *
  by_cases hcarry : q = 2 ^ 53
  · subst hcarry
    rw [← Nat.pow_add] at hle ⊢
    have hlt := lt_of_pow_le_magnitude hle
    rw [if_pos rfl, ofParts_eq negative (by decide) (by omega) (.inr (Nat.le_refl _))]
    refine ⟨_, rfl, rfl, ?_⟩
    show 2 ^ 52 * 2 ^ (k + 1) = 2 ^ (53 + k)
    ring
  · have hk : k ≤ 2045 := by
      rcases hlow with rfl | hlow
      · exact Nat.zero_le _
      · have hpow : 2 ^ (52 + k) ≤ y.magnitude := by
          rw [Nat.pow_add]
          exact Nat.le_trans (Nat.mul_le_mul_right _ hlow) hle
        have hlt := lt_of_pow_le_magnitude hpow
        omega
    rw [if_neg hcarry, ofParts_eq negative (Nat.lt_of_le_of_ne hhigh hcarry) hk hlow]
    exact ⟨_, rfl, rfl, rfl⟩

/-! ### Integers -/

/-- The integer nearest to `k` that has 53 binary digits and zeros behind them. -/
def nearest (k : Int) : Int := k.sign * nearestNat k.natAbs

theorem nearest_neg (k : Int) : nearest (-k) = -nearest k := by
  unfold nearest
  rw [Int.sign_neg, Int.natAbs_neg, Int.neg_mul]

theorem nearest_natCast (n : Nat) : nearest n = nearestNat n := by
  unfold nearest
  rcases Nat.eq_zero_or_pos n with rfl | hpos
  · rfl
  · rw [Int.sign_eq_one_of_pos (by omega), Int.one_mul, Int.natAbs_natCast]

theorem nearest_mono {a b : Int} (h : a ≤ b) : nearest a ≤ nearest b := by
  obtain ⟨n, rfl | rfl⟩ := Int.eq_nat_or_neg a <;> obtain ⟨m, rfl | rfl⟩ := Int.eq_nat_or_neg b <;>
    simp only [nearest_neg, nearest_natCast]
  · have hmono := nearestNat_mono (n := n) (m := m) (by omega)
    omega
  · obtain ⟨rfl, rfl⟩ : n = 0 ∧ m = 0 := by omega
    have hzero : nearestNat 0 = 0 := nearestNat_of_lt (by decide)
    omega
  · omega
  · have hmono := nearestNat_mono (n := m) (m := n) (by omega)
    omega

theorem nearest_of_natAbs_le {k : Int} (h : k.natAbs ≤ 2 ^ 53) : nearest k = k := by
  unfold nearest
  rw [nearestNat_of_le h, Int.sign_mul_natAbs]

/-- An integer of 53 digits is the nearest to no other. -/
theorem eq_of_nearest_eq {a b : Int} (ha : a.natAbs < 2 ^ 53) (h : nearest a = nearest b) : a = b := by
  rw [nearest_of_natAbs_le (Nat.le_of_lt ha)] at h
  by_cases hb : b.natAbs ≤ 2 ^ 53
  · rwa [nearest_of_natAbs_le hb] at h
  · rcases Int.le_total 0 b with hpos | hneg
    · have hbound := nearest_mono (a := 2 ^ 53) (b := b) (by omega)
      rw [nearest_of_natAbs_le (k := 2 ^ 53) (Nat.le_refl _)] at hbound
      omega
    · have hbound := nearest_mono (a := b) (b := -2 ^ 53) (by omega)
      rw [nearest_of_natAbs_le (k := -2 ^ 53) (Nat.le_refl _)] at hbound
      omega

/-- A double has the value of the integer number of units that it was rounded from, rounded. -/
theorem units_eq_nearest {x : Double} {u : Int} (hnegative : x.negative = decide (u < 0))
    (hmagnitude : x.magnitude = nearestNat u.natAbs) : x.units = nearest u := by
  unfold units nearest
  rw [hnegative, hmagnitude]
  rcases Int.lt_trichotomy u 0 with hlt | rfl | hgt
  · rw [decide_eq_true hlt, if_pos rfl, Int.sign_eq_neg_one_of_neg hlt, Int.neg_one_mul]
  · rfl
  · rw [decide_eq_false (by omega), Int.sign_eq_one_of_pos hgt, Int.one_mul]
    rfl

theorem nearest_units (x : Double) : nearest x.units = x.units := by
  unfold units
  split
  · rw [nearest_neg, nearest_natCast, nearestNat_magnitude]
  · rw [nearest_natCast, nearestNat_magnitude]

theorem exists_ofUnits_eq {y : Double} {u : Int} (negativeZero : Bool) (h : u.natAbs ≤ y.magnitude) :
    ∃ x, Extended.ofUnits u negativeZero = .finite x ∧ x.units = nearest u := by
  unfold Extended.ofUnits
  by_cases hu : u = 0
  · subst hu
    refine ⟨_, if_pos rfl, ?_⟩
    cases negativeZero <;> rfl
  · obtain ⟨x, hx, hnegative, hmagnitude⟩ := exists_round_eq (decide (u < 0)) h
    rw [if_neg hu]
    exact ⟨x, hx, units_eq_nearest hnegative hmagnitude⟩

/-! ### Integers as doubles -/

theorem exists_unitsPerOne_eq : ∃ e, e = 1074 ∧ unitsPerOne = 2 ^ e := by
  refine ⟨1074, rfl, ?_⟩
  decide +kernel

theorem nearestNat_mul_unitsPerOne (n : Nat) :
    nearestNat (n * unitsPerOne) = nearestNat n * unitsPerOne := by
  obtain ⟨e, -, he⟩ := exists_unitsPerOne_eq
  rw [he, nearestNat_mul_pow]

theorem nearest_mul_unitsPerOne (k : Int) : nearest (k * unitsPerOne) = nearest k * unitsPerOne := by
  have hsign : (unitsPerOne : Int).sign = 1 := Int.sign_eq_one_of_pos natCast_unitsPerOne_pos
  unfold nearest
  rw [Int.sign_mul, hsign, Int.mul_one, Int.natAbs_mul, Int.natAbs_natCast, nearestNat_mul_unitsPerOne,
    Int.natCast_mul, Int.mul_assoc]

theorem exists_pow_le_magnitude {e : Nat} (he : e ≤ 2097) : ∃ y : Double, 2 ^ e ≤ y.magnitude := by
  refine ⟨⟨false, Nat.pow 2 52, e - 52, by decide, by omega, .inr (Nat.le_refl _)⟩, ?_⟩
  show 2 ^ e ≤ 2 ^ 52 * 2 ^ (e - 52)
  rw [← Nat.pow_add]
  exact Nat.pow_le_pow_right Nat.two_pos (by omega)

theorem exists_units_le_magnitude (h : n ≤ 2 ^ 64) : ∃ y : Double, n * unitsPerOne ≤ y.magnitude := by
  obtain ⟨e, he, hunit⟩ := exists_unitsPerOne_eq
  obtain ⟨y, hy⟩ := exists_pow_le_magnitude (e := 64 + e) (by omega)
  refine ⟨y, Nat.le_trans ?_ hy⟩
  rw [hunit, Nat.pow_add]
  exact Nat.mul_le_mul_right _ h

/-- An integer in the range of words counts as the double whose value is its nearest integer. -/
theorem units_ofInt {k : Int} (hk : (Number.int k).InRange) : (ofInt k).units = nearest k * unitsPerOne := by
  obtain ⟨hlow, hhigh⟩ := hk
  obtain ⟨y, hy⟩ := exists_units_le_magnitude (n := k.natAbs) (by omega)
  obtain ⟨x, hx, hnegative, hmagnitude⟩ := exists_round_eq (decide (k < 0)) hy
  have hpos := natCast_unitsPerOne_pos
  have hneg : k < 0 ↔ k * unitsPerOne < 0 := by
    constructor
    · intro hlt
      exact Int.mul_neg_of_neg_of_pos hlt hpos
    · intro hlt
      by_contra hge
      have hmul := Int.mul_nonneg (Int.not_lt.1 hge) (Int.le_of_lt hpos)
      omega
  rw [ofInt_of_round hx, ← nearest_mul_unitsPerOne]
  refine units_eq_nearest ?_ ?_
  · rw [hnegative, decide_eq_decide, hneg]
  · rw [hmagnitude, Int.natAbs_mul, Int.natAbs_natCast]

theorem order_ofInt {a b : Int} (ha : (Number.int a).InRange) (hb : (Number.int b).InRange) :
    (ofInt a).order (ofInt b) = compare (nearest a) (nearest b) := by
  unfold order
  rw [units_ofInt ha, units_ofInt hb, ← cmp_eq_compare, ← cmp_eq_compare,
    cmp_mul_pos_right natCast_unitsPerOne_pos]

end Double
end JsonRules
