import JsonRules.Proofs.Double.Exact
import JsonRules.Proofs.Integer
import JsonRules.Proofs.Json.Number
import JsonRules.Rule.Result

/-!
# Remainders of integers

Signed words have the floored remainder, and neither the remainder nor its correction leaves the words
(`result_modulo_signed`). Integers beyond them are divided as doubles, both rounded before and the result
rounded once more (`result_modulo_unsigned`).
-/

namespace JsonRules

namespace Operator

/-! ### Words -/

variable {x y : Int}

theorem toInt_ofInt_of_isSigned (h : IsSigned x) : (Int64.ofInt x).toInt = x := by
  obtain ⟨hlow, hhigh⟩ := h
  exact Int64.toInt_ofInt_of_le (by omega) (by omega)

theorem word_corrects_iff (r y : Int64) : (r != 0 && decide (r < 0) != decide (y < 0)) = true ↔
    r.toInt ≠ 0 ∧ (r.toInt < 0 ↔ ¬y.toInt < 0) := by
  rw [Bool.and_eq_true, bne_iff_ne, bne_iff_ne, Ne, Ne, decide_eq_decide, Int64.lt_iff_toInt_lt,
    Int64.lt_iff_toInt_lt, ← Int64.toInt_inj, Int64.toInt_zero]
  omega

/-- Words of different signs have a sum that is no larger than they are. -/
theorem toInt_add_of_signs {r y : Int64} (h : r.toInt < 0 ↔ ¬y.toInt < 0) :
    (r + y).toInt = r.toInt + y.toInt := by
  have hr := r.le_toInt
  have hr' := r.toInt_lt
  have hy := y.le_toInt
  have hy' := y.toInt_lt
  rw [Int64.toInt_add]
  exact Int.bmod_eq_of_le (by omega) (by omega)

theorem toInt_wordRemainder (x y : Int64) : (wordRemainder x y).toInt = x.toInt.fmod y.toInt := by
  have hremainder := Int64.toInt_mod x y
  have hcorrects := word_corrects_iff (x % y) y
  unfold wordRemainder
  dsimp only
  rw [Int.fmod_eq_ite, ← hremainder]
  by_cases hcorrect : (x % y != 0 && decide (x % y < 0) != decide (y < 0)) = true
  · rw [if_pos hcorrect, if_pos (hcorrects.1 hcorrect)]
    exact toInt_add_of_signs (hcorrects.1 hcorrect).2
  · rw [if_neg hcorrect, if_neg (mt hcorrects.2 hcorrect)]

theorem isSigned_fmod (hy : IsSigned y) (hne : y ≠ 0) : IsSigned (x.fmod y) := by
  obtain ⟨hlow, hhigh⟩ := hy
  have hrange := Int.fmod_range x hne
  constructor <;> omega

theorem result_modulo (a b data : Json) : modulo.result [a, b] data = remainder a b := rfl

theorem remainder_ofInt (x y : Int) : remainder (.ofInt x) (.ofInt y) =
    if IsSigned x ∧ IsSigned y then
      if y = 0 then .error .divisionByZero
      else .ok (.ofInt (wordRemainder (.ofInt x) (.ofInt y)).toInt)
    else remainder.ofDoubles (.ofInt x) (.ofInt y) := by
  show remainder (.num (.int x)) (.num (.int y)) = _
  unfold remainder Number.toSigned?
  dsimp only
  by_cases hx : IsSigned x
  · by_cases hy : IsSigned y
    · rw [if_pos hx, if_pos hy, if_pos ⟨hx, hy⟩]
    · rw [if_pos hx, if_neg hy, if_neg (not_and_of_not_right _ hy)]
      rfl
  · rw [if_neg hx, if_neg (not_and_of_not_left _ hx)]
    rfl

/-- The remainder of signed words is the floored one; neither the truncated remainder nor its sum with
the divisor, where the signs differ, leaves the words. -/
theorem result_modulo_signed (hx : IsSigned x) (hy : IsSigned y) (data : Json) :
    (y = 0 → modulo.result [.ofInt x, .ofInt y] data = .error .divisionByZero) ∧
    (y ≠ 0 →
      (∃ r, modulo.result [.ofInt x, .ofInt y] data = .ok (.ofInt r) ∧ IsSigned r ∧ r ≡ x [ZMOD y] ∧
        (r = 0 ∨ r.sign = y.sign) ∧ r.natAbs < y.natAbs) ∧
      (Int64.ofInt x % Int64.ofInt y).toInt = x.tmod y ∧
      (x.tmod y ≠ 0 → (x.tmod y < 0 ↔ ¬y < 0) →
        (Int64.ofInt x % Int64.ofInt y + Int64.ofInt y).toInt = x.tmod y + y)) := by
  have hwords : modulo.result [.ofInt x, .ofInt y] data =
      if y = 0 then .error .divisionByZero
      else .ok (.ofInt (wordRemainder (.ofInt x) (.ofInt y)).toInt) := by
    rw [result_modulo, remainder_ofInt, if_pos ⟨hx, hy⟩]
  have hdividend := toInt_ofInt_of_isSigned hx
  have hdivisor := toInt_ofInt_of_isSigned hy
  have htruncated : (Int64.ofInt x % Int64.ofInt y).toInt = x.tmod y := by
    rw [Int64.toInt_mod, hdividend, hdivisor]
  refine ⟨fun hzero => ?_, fun hne => ⟨?_, htruncated, fun _ hsigns => ?_⟩⟩
  · rw [hwords, if_pos hzero]
  · refine ⟨x.fmod y, ?_, isSigned_fmod hy hne, Int.modEq_fmod x y, Int.fmod_range x hne⟩
    rw [hwords, if_neg hne, toInt_wordRemainder, hdividend, hdivisor]
  · rw [toInt_add_of_signs (by rwa [htruncated, hdivisor]), htruncated, hdivisor]

/-- The least word divided by zero, by -1, for which words have no quotient, and with a correction. -/
theorem result_modulo_signed_least :
    let least : Int := -9223372036854775808
    modulo.result [.ofInt least, .ofInt 0] .null = .error .divisionByZero ∧
    modulo.result [.ofInt least, .ofInt (-1)] .null = .ok (.ofInt 0) ∧
    modulo.result [.ofInt least, .ofInt 3] .null = .ok (.ofInt 1) ∧
    (Int64.ofInt least % Int64.ofInt 3 + Int64.ofInt 3).toInt = 1 := by
  intro least
  have hleast : IsSigned least := by decide
  obtain ⟨⟨r, hr, -, -, -, hlt⟩, -⟩ :=
    (result_modulo_signed hleast (y := -1) (by decide) .null).2 (by decide)
  obtain ⟨⟨s, hs, -, hmod, hsign, hlt'⟩, -, hsum⟩ :=
    (result_modulo_signed hleast (y := 3) (by decide) .null).2 (by decide)
  have hr' : r = 0 := by omega
  have hs' : s = 1 := by
    have hrest : s % 3 = 1 := hmod
    have hpos : 0 < s := Int.sign_eq_one_iff_pos.1 (hsign.resolve_left (by omega))
    omega
  subst hr' hs'
  exact ⟨(result_modulo_signed hleast (y := 0) (by decide) .null).1 rfl, hr, hs,
    hsum (by decide) (by decide)⟩

/-! ### Integers beyond signed words -/

theorem exists_ofArithmetic_eq (x : Double) :
    ∃ n, Json.ofArithmetic (.finite x) = .ok (.num n) ∧ n.units = x.units := by
  obtain ⟨n, hn, hunits⟩ := Number.exists_ofExtended?_eq x
  refine ⟨n, ?_, hunits⟩
  unfold Json.ofArithmetic
  rw [hn]

/-- Integers beyond signed words are rounded to doubles, which have the floored remainder up to one
rounding more. The result is exact just where the second rounding makes up for the first, as for
operands of one sign that doubles hold. -/
theorem result_modulo_unsigned (hx : (Number.int x).InRange) (hy : (Number.int y).InRange)
    (hwide : ¬IsSigned x ∨ ¬IsSigned y) (hne : y ≠ 0) (data : Json) :
    ∃ n, modulo.result [.ofInt x, .ofInt y] data = .ok (.num n) ∧
      n.units = Double.nearest ((Double.nearest x).fmod (Double.nearest y)) * unitsPerOne ∧
      (n.units = x.fmod y * unitsPerOne ↔
        Double.nearest ((Double.nearest x).fmod (Double.nearest y)) = x.fmod y) ∧
      (Double.nearest x = x → Double.nearest y = y → (x < 0 ↔ y < 0) →
        n.units = x.fmod y * unitsPerOne) := by
  obtain ⟨z, hz, hunits⟩ := Double.exists_floorMod_ofInt_eq hx hy hne
  obtain ⟨n, hn, hvalue⟩ := exists_ofArithmetic_eq z
  rw [hunits] at hvalue
  refine ⟨n, ?_, hvalue, ?_, fun hx' hy' hsigns => ?_⟩
  · rw [result_modulo, remainder_ofInt, if_neg (not_and_or.2 hwide), remainder.ofDoubles,
      Double.isZero_ofInt_of_ne hne, hz]
    exact hn
  · rw [hvalue, Int.mul_eq_mul_right_iff (Int.ne_of_gt natCast_unitsPerOne_pos)]
  · rw [hvalue, hx', hy', Int.fmod_eq_tmod_of_neg_iff hsigns, Double.nearest_tmod hx hy hne hx' hy']

theorem result_modulo_unsigned_pow :
    ∃ n, modulo.result [.ofInt 9223372036854775808, .ofInt 10] .null = .ok (.num n) ∧
      n.units = 8 * unitsPerOne := by
  obtain ⟨n, hn, -, -, hexact⟩ := result_modulo_unsigned (x := 9223372036854775808) (y := 10)
    (by decide) (by decide) (.inl (by decide)) (by decide) .null
  exact ⟨n, hn, hexact (by decide +kernel) (by decide +kernel) (by decide)⟩

/-- The greatest integer is rounded up to a power of two, and its last digit becomes 6. -/
theorem result_modulo_unsigned_greatest :
    modulo.result [.ofInt 18446744073709551615, .ofInt 10] .null = .ok (.ofInt 6) ∧
      (18446744073709551615 : Int).fmod 10 = 5 := by
  have hzero : (Double.ofInt 10).isZero = false := Double.isZero_ofInt_of_ne (by decide)
  have hmod : Number.ofExtended? ((Double.ofInt 18446744073709551615).floorMod (.ofInt 10)) =
      some (.int 6) := by
    decide +kernel
  refine ⟨?_, by decide⟩
  rw [result_modulo, remainder_ofInt, if_neg (by decide), remainder.ofDoubles, hzero,
    if_neg Bool.false_ne_true, Json.ofArithmetic, hmod]
  rfl

end Operator
end JsonRules
