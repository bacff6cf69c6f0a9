import Mathlib.Data.Int.ModEq
import Mathlib.Data.List.Basic
import Mathlib.Data.Nat.Digits.Defs

/-!
# Integers and their digits

The floored remainder beside the truncated one, and the decimal digits of natural numbers, as far as the
library leaves them out.
-/

/-! ### Remainders -/

namespace Int

variable {x y : Int}

theorem tmod_nonpos (y : Int) (hx : x ≤ 0) : x.tmod y ≤ 0 := by
  have hneg := tmod_nonneg (a := -x) y (by omega)
  rw [neg_tmod] at hneg
  omega

/-- A floored remainder is the truncated one, to which the divisor is added where it lies on the other
side of zero. -/
theorem fmod_eq_ite (x y : Int) :
    x.fmod y = if x.tmod y ≠ 0 ∧ (x.tmod y < 0 ↔ ¬y < 0) then x.tmod y + y else x.tmod y := by
  have hnonneg := tmod_nonneg (a := x) y
  have hnonpos := tmod_nonpos (x := x) y
  rw [fmod_eq_tmod]
  simp only [dvd_iff_tmod_eq_zero]
  split_ifs <;> omega

theorem fmod_eq_tmod_of_neg_iff (h : x < 0 ↔ y < 0) : x.fmod y = x.tmod y := by
  have hnonneg := tmod_nonneg (a := x) y
  have hnonpos := tmod_nonpos (x := x) y
  rw [fmod_eq_ite, if_neg]
  omega

theorem modEq_fmod (x y : Int) : x.fmod y ≡ x [ZMOD y] := by
  rw [modEq_iff_dvd, fmod_def]
  exact ⟨x.fdiv y, by omega⟩

theorem sign_eq_of_neg_iff (hx : x ≠ 0) (hy : y ≠ 0) (h : x < 0 ↔ y < 0) : x.sign = y.sign := by
  rcases Int.lt_or_gt_of_ne hy with hneg | hpos
  · rw [sign_eq_neg_one_of_neg (h.2 hneg), sign_eq_neg_one_of_neg hneg]
  · rw [sign_eq_one_of_pos (by omega), sign_eq_one_of_pos hpos]

theorem fmod_range (x : Int) (hy : y ≠ 0) :
    (x.fmod y = 0 ∨ (x.fmod y).sign = y.sign) ∧ (x.fmod y).natAbs < y.natAbs := by
  have hsize := natAbs_tmod x y
  have hlt := Nat.mod_lt x.natAbs (natAbs_pos.2 hy)
  have hrange : (x.fmod y = 0 ∨ (x.fmod y < 0 ↔ y < 0)) ∧ (x.fmod y).natAbs < y.natAbs := by
    rw [fmod_eq_ite]
    split_ifs <;> omega
  refine ⟨?_, hrange.2⟩
  by_cases hzero : x.fmod y = 0
  · exact .inl hzero
  · exact .inr (sign_eq_of_neg_iff hzero hy (hrange.1.resolve_left hzero))

end Int

/-! ### Digits -/

namespace Nat

variable {n : Nat} {digits : List Char}

/-- The digits of a number do not begin with a zero, unless it is zero. -/
theorem head?_toDigits (hn : n ≠ 0) : (toDigits 10 n).head? ≠ some '0' := by
  induction n using Nat.strong_induction_on with
  | h n ih =>
    rcases Nat.lt_or_ge n 10 with hlt | hge
    · rw [toDigits_of_lt_base hlt]
      intro hhead
      have hchar : digitChar n = '0' := by simpa using hhead
      exact hn (digitChar_eq_zero.1 hchar)
    · have hne : toDigits 10 (n / 10) ≠ [] := toDigits_ne_nil
      rw [toDigits_of_base_le (by decide) hge, List.head?_append_of_ne_nil _ hne]
      exact ih (n / 10) (by omega) (by omega)

theorem isDigit_of_mem_zeros (zeros : Nat) : ∀ c ∈ List.replicate zeros '0', c.isDigit := by
  intro c hc
  rw [List.eq_of_mem_replicate hc]
  rfl

theorem exists_digitChar_eq {c : Char} (h : c.isDigit) : ∃ d < 10, c = digitChar d := by
  obtain ⟨hlow, hhigh⟩ := Char.isDigit_iff_toNat.1 h
  have hzero : '0'.toNat = 48 := rfl
  have hnine : '9'.toNat = 57 := rfl
  refine ⟨c.toNat - 48, by omega, Char.toNat_inj.1 ?_⟩
  rw [toNat_digitChar_of_lt_ten (by omega)]
  omega

theorem le_ofDigitChars (digits : List Char) (n : Nat) : n ≤ ofDigitChars 10 digits n := by
  induction digits generalizing n with
  | nil => exact Nat.le_refl n
  | cons c rest ih =>
    rw [ofDigitChars_cons]
    exact Nat.le_trans (by omega) (ih _)

/-- Digits put behind a number that is not zero stand behind its own digits. -/
theorem toDigits_ofDigitChars (hn : 0 < n) (h : ∀ c ∈ digits, c.isDigit) :
    toDigits 10 (ofDigitChars 10 digits n) = toDigits 10 n ++ digits := by
  induction digits generalizing n with
  | nil => rw [ofDigitChars_nil, List.append_nil]
  | cons c rest ih =>
    obtain ⟨hc, hrest⟩ := List.forall_mem_cons.1 h
    obtain ⟨d, hd, rfl⟩ := exists_digitChar_eq hc
    have hpush : toDigits 10 (10 * n + d) = toDigits 10 n ++ [digitChar d] := by
      rw [← toDigits_append_toDigits (by decide) hn hd, toDigits_of_lt_base hd]
    rw [ofDigitChars_cons_digitChar_of_lt_ten hd, ih (by omega) hrest, hpush, List.append_assoc,
      List.singleton_append]

/-- Digits are those of the number that they spell, with zeros in front. -/
theorem exists_eq_toDigits (hne : digits ≠ []) (h : ∀ c ∈ digits, c.isDigit) :
    ∃ zeros, digits = List.replicate zeros '0' ++ toDigits 10 (ofDigitChars 10 digits 0) := by
  induction digits with
  | nil => exact absurd rfl hne
  | cons c rest ih =>
    obtain ⟨hc, hrest⟩ := List.forall_mem_cons.1 h
    obtain ⟨d, hd, rfl⟩ := exists_digitChar_eq hc
    rw [ofDigitChars_cons_digitChar_of_lt_ten hd]
    rcases Nat.eq_zero_or_pos (10 * 0 + d) with hzero | hpos
    · obtain rfl : d = 0 := by omega
      by_cases hlast : rest = []
      · subst hlast
        exact ⟨0, rfl⟩
      · obtain ⟨zeros, hzeros⟩ := ih hlast hrest
        refine ⟨zeros + 1, ?_⟩
        rw [hzero, List.replicate_succ, List.cons_append, ← hzeros]
        rfl
    · refine ⟨0, ?_⟩
      rw [toDigits_ofDigitChars hpos hrest, toDigits_of_lt_base (by omega), Nat.mul_zero, Nat.zero_add]
      rfl

end Nat
