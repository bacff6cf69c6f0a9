import JsonRules.Proofs.Rule.Arithmetic
import JsonRules.Proofs.Rule.Modulo
import Mathlib.Data.List.Basic

/-!
# What arithmetic writes

Arithmetic ends in a double and writes it as a number of the same value. That number is the integer wherever
a signed word holds the value, and the double itself elsewhere (`Json.ofArithmetic_eq_int_iff`); infinities and
not-a-number are not written at all. All operators of arithmetic write their results so (`exists_written`), a
remainder of two signed words apart, which is an integer from the start. Hence none gives a double that could
have been an integer (`result_canonical`).
-/

namespace JsonRules

/-- A number in the form in which arithmetic writes its value: a double only where no signed word has it. -/
def Number.IsCanonical : Number → Prop
  | .int k => IsSigned k
  | .double x => ∀ k, x.IsInteger k → ¬IsSigned k

namespace Json

variable {x : Double} {t : Extended} {v : Json}

theorem ofArithmetic_eq_int_iff {n : Number} (h : ofArithmetic (.finite x) = .ok (.num n)) (k : Int) :
    n = .int k ↔ x.IsInteger k ∧ IsSigned k := by
  have hn : Number.ofExtended? (.finite x) = some n := by
    unfold ofArithmetic at h
    split at h
    · cases h
      assumption
    · cases h
  constructor
  · rintro rfl
    by_cases hinteger : ∃ j, x.IsInteger j ∧ IsSigned j
    · obtain ⟨j, hj, hsigned⟩ := hinteger
      rw [Number.ofExtended?_of_isInteger hj hsigned] at hn
      cases hn
      exact ⟨hj, hsigned⟩
    · rw [Number.ofExtended?_of_not_isInteger fun j hj hsigned => hinteger ⟨j, hj, hsigned⟩] at hn
      cases hn
  · rintro ⟨hinteger, hk⟩
    rw [Number.ofExtended?_of_isInteger hinteger hk] at hn
    exact (Option.some.inj hn).symm

theorem ofArithmetic_of_not_finite (h : ∀ x, t ≠ .finite x) :
    ofArithmetic t = .error (.typeMismatch (.notFinite t)) := by
  cases t with
  | finite x => exact absurd rfl (h x)
  | infinite | nan => rfl

/-- What is written is canonical. -/
theorem exists_isCanonical (h : ofArithmetic t = .ok v) : ∃ n, v = .num n ∧ n.IsCanonical := by
  cases t with
  | infinite | nan => cases h
  | finite x =>
    obtain ⟨n, rfl, -⟩ := exists_of_ofArithmetic h
    refine ⟨n, rfl, ?_⟩
    have hint := ofArithmetic_eq_int_iff h
    cases n with
    | int k => exact ((hint k).1 rfl).2
    | double y =>
      intro k hk hsigned
      -- a double that is written is the one that was there
      have hunits : y.units = x.units := by
        obtain ⟨m, hm, hm'⟩ := Operator.exists_ofArithmetic_eq x
        rw [h] at hm
        cases hm
        exact hm'
      have hx : x.IsInteger k := hunits.symm.trans hk
      cases (hint k).2 ⟨hx, hsigned⟩

end Json

namespace Operator

variable {o : Operator} {operands : List Json} {a b data v : Json}

theorem result_divide (a b data : Json) : divide.result [a, b] data = quotient a b := rfl

theorem exists_of_quotient (h : quotient a b = .ok v) : ∃ t, Json.ofArithmetic t = .ok v := by
  obtain ⟨x, -, h⟩ := Result.bind_eq_ok.1 h
  obtain ⟨y, -, h⟩ := Result.bind_eq_ok.1 h
  split at h
  · cases h
  · exact ⟨_, h⟩

theorem exists_of_ofDoubles {x y : Double} (h : remainder.ofDoubles x y = .ok v) :
    ∃ t, Json.ofArithmetic t = .ok v := by
  unfold remainder.ofDoubles at h
  split at h
  · cases h
  · exact ⟨_, h⟩

/-- A remainder is one of words or is written by arithmetic. -/
theorem exists_of_remainder (h : remainder a b = .ok v) :
    (∃ w : Int64, v = .ofInt w.toInt) ∨ ∃ t, Json.ofArithmetic t = .ok v := by
  unfold remainder at h
  split at h
  · split at h
    · split at h
      · cases h
      · cases h
        exact .inl ⟨_, rfl⟩
    · exact .inr (exists_of_ofDoubles h)
  · obtain ⟨x, -, h⟩ := Result.bind_eq_ok.1 h
    obtain ⟨y, -, h⟩ := Result.bind_eq_ok.1 h
    exact .inr (exists_of_ofDoubles h)

/-- The result of an operator of arithmetic is one of words or is written by arithmetic. -/
theorem exists_written (ho : o ∈ [add, multiply, subtract, divide, modulo])
    (hcount : o = divide → operands.length = 2) (h : o.result operands data = .ok v) :
    (∃ w : Int64, v = .ofInt w.toInt) ∨ ∃ t, Json.ofArithmetic t = .ok v := by
  by_cases hsum : o ∈ [add, multiply, subtract]
  · exact .inr (exists_of_result hsum h)
  · obtain rfl | rfl : o = divide ∨ o = modulo := by
      simp only [List.mem_cons, List.not_mem_nil, or_false, not_or] at ho hsum
      tauto
    · obtain ⟨a, b, rfl⟩ := List.length_eq_two.1 (hcount rfl)
      rw [result_divide] at h
      exact .inr (exists_of_quotient h)
    · match operands, h with
      | [], h | [_], h => cases h
      | [a, b], h =>
        rw [result_modulo] at h
        exact exists_of_remainder h
      | _ :: _ :: _ :: rest, h =>
        have hcount : modulo.arity.accepts (rest.length + 3) = false := by
          simp [arity, Arity.accepts]
        simp [result, hcount] at h

/-- Every finite double is written as a number of the same value, which is an integer just where a signed word
has that value: the word is then the value itself. Infinities and not-a-number are no results. So a result
of arithmetic is a canonical number. -/
theorem result_canonical :
    (∀ x : Double, ∃ n, Json.ofArithmetic (.finite x) = .ok (.num n) ∧ n.units = x.units ∧
      (∀ k, n = .int k ↔ x.IsInteger k ∧ IsSigned k) ∧
      (x.isWhole = true → x.isWithinWords = true → x.IsInteger x.toWord.toInt)) ∧
    (∀ t : Extended, (∀ x, t ≠ .finite x) → Json.ofArithmetic t = .error (.typeMismatch (.notFinite t))) ∧
    ∀ o ∈ [add, multiply, subtract, divide, modulo], ∀ operands data v,
      (o = divide → operands.length = 2) → o.result operands data = .ok v →
      ∃ n, v = .num n ∧ n.IsCanonical := by
  refine ⟨fun x => ?_, fun t ht => Json.ofArithmetic_of_not_finite ht, fun o ho operands data v hcount hv => ?_⟩
  · obtain ⟨n, hn, hunits⟩ := exists_ofArithmetic_eq x
    refine ⟨n, hn, hunits, Json.ofArithmetic_eq_int_iff hn, fun hwhole hwithin => ?_⟩
    obtain ⟨k, hk⟩ := Double.isWhole_iff.1 hwhole
    rwa [hk.toInt_toWord (hk.isWithinWords_iff.1 hwithin)]
  · rcases exists_written ho hcount hv with ⟨w, rfl⟩ | ⟨t, ht⟩
    · refine ⟨_, rfl, ?_⟩
      have hlow := w.le_toInt
      have hhigh := w.toInt_lt
      exact ⟨by omega, by omega⟩
    · exact Json.exists_isCanonical ht

/-- The least word is written as the integer, the number after the greatest word as a double, and so is a
half. -/
theorem result_canonical_bounds :
    Json.ofArithmetic (.finite (.ofInt (-2 ^ 63))) = .ok (.ofInt (-2 ^ 63)) ∧
    (∃ x : Double, Json.ofArithmetic (.finite (.ofInt (2 ^ 63))) = .ok (.num (.double x)) ∧
      x.IsInteger (2 ^ 63)) ∧
    ∃ n, divide.result [.ofInt 1, .ofInt 2] .null = .ok (.num n) ∧ 2 * n.units = unitsPerOne ∧
      n.IsCanonical := by
  obtain ⟨hwritten, -, hcanonical⟩ := result_canonical
  refine ⟨?_, ?_, ?_⟩
  · have hnearest : Double.nearest (-2 ^ 63) = -2 ^ 63 := by decide +kernel
    have hleast : (Double.ofInt (-2 ^ 63)).IsInteger (-2 ^ 63) := by
      rw [Double.IsInteger, Double.units_ofInt (by decide), hnearest]
    obtain ⟨n, hn, -, hint, -⟩ := hwritten (.ofInt (-2 ^ 63))
    rw [hn, (hint (-2 ^ 63)).2 ⟨hleast, by decide⟩]
    rfl
  · have hnearest : Double.nearest (2 ^ 63) = 2 ^ 63 := by decide +kernel
    have hbound : (Double.ofInt (2 ^ 63)).IsInteger (2 ^ 63) := by
      rw [Double.IsInteger, Double.units_ofInt (by decide), hnearest]
    obtain ⟨n, hn, hunits, hint, -⟩ := hwritten (.ofInt (2 ^ 63))
    cases n with
    | int k =>
      obtain ⟨hk, hsigned⟩ := (hint k).1 rfl
      rw [hk.unique hbound] at hsigned
      exact absurd hsigned (by decide)
    | double x => exact ⟨x, hn, hunits.trans hbound⟩
  · let half : Double := ⟨false, Nat.pow 2 52, 1021, by decide, by decide, .inr (by decide)⟩
    have hquotient : Extended.finite (.ofInt 1) / Extended.finite (.ofInt 2) = .finite half := by
      decide +kernel
    have hunits : 2 * half.units = unitsPerOne := by decide +kernel
    have hdivisor : (Extended.finite (.ofInt 2)).isZero = false := Double.isZero_ofInt_of_ne (by decide)
    clear_value half
    obtain ⟨n, hn, hvalue, -⟩ := hwritten half
    have hresult : divide.result [.ofInt 1, .ofInt 2] .null = .ok (.num n) := by
      have hcoerce : ∀ k, (Json.ofInt k).coerceNumber = .ok (.finite (.ofInt k)) := fun _ => rfl
      rw [result_divide, quotient, Result.bind_eq_ok]
      refine ⟨_, hcoerce 1, Result.bind_eq_ok.2 ⟨_, hcoerce 2, ?_⟩⟩
      rw [hdivisor, if_neg Bool.false_ne_true, hquotient]
      exact hn
    obtain ⟨m, hm, hcanonical⟩ := hcanonical divide (by decide) _ _ _ (fun _ => rfl) hresult
    cases hm
    exact ⟨n, hresult, hvalue ▸ hunits, hcanonical⟩

end Operator
end JsonRules
