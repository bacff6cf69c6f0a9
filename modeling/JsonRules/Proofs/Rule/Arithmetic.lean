import JsonRules.Proofs.Json.Number
import JsonRules.Rule.Result
import Mathlib.Algebra.BigOperators.Group.List.Basic
import Mathlib.Data.List.Infix

/-!
# Arithmetic on small integers

Integers of 53 digits are added and multiplied exactly, in lists of any length, as long as no partial
result is larger (`result_exact`): each step of the loop keeps a double that stands for the partial result
(`exists_total_eq`), and the last one is written as an integer.
-/

namespace JsonRules

theorem Json.ofArithmetic_of_isInteger {x : Double} {k : Int} (h : x.IsInteger k)
    (hk : k.natAbs ≤ 2 ^ 53) : ofArithmetic (.finite x) = .ok (.ofInt k) := by
  have hsigned : IsSigned k := ⟨by omega, by omega⟩
  unfold ofArithmetic
  rw [Number.ofExtended?_of_isInteger h hsigned]
  rfl

theorem Json.exists_of_ofArithmetic {x : Extended} {v : Json} (h : ofArithmetic x = .ok v) :
    ∃ n, v = .num n ∧ (n.units = 0 → n = .int 0) := by
  unfold ofArithmetic at h
  cases hn : Number.ofExtended? x with
  | none =>
    rw [hn] at h
    cases h
  | some n =>
    rw [hn] at h
    cases h
    exact ⟨n, rfl, Number.eq_zero_of_ofExtended? hn⟩

namespace Operator

open Json (ofInt)

variable {op : Extended → Extended → Extended} {f : Int → Int → Int} {items : List Int} {start : Int}
  {t w : Extended} {v : Json} {e : RuleError}

/-- The loop over the operands, before its result is written as a value. -/
def total (op : Extended → Extended → Extended) (t : Extended) (operands : List Json) : Result Extended :=
  operands.foldlM (fun total v => (op total ·) <$> v.coerceNumber) t

theorem accumulate_eq (operands : List Json) :
    accumulate op start operands = total op (.finite (.ofInt start)) operands >>= Json.ofArithmetic := rfl

theorem total_cons_of_ok (hv : v.coerceNumber = .ok w) (rest : List Json) :
    total op t (v :: rest) = total op (op t w) rest := by
  unfold total
  rw [List.foldlM_cons, hv]
  rfl

theorem total_cons_of_error (hv : v.coerceNumber = .error e) (rest : List Json) :
    total op t (v :: rest) = .error e := by
  unfold total
  rw [List.foldlM_cons, hv]
  rfl

/-! ### Exact loops -/

/-- An operation on doubles is the one on integers wherever the operands are integers and 53 digits are
enough for the result. -/
def Exact (op : Extended → Extended → Extended) (f : Int → Int → Int) : Prop :=
  ∀ ⦃x y : Double⦄ ⦃a b : Int⦄, x.IsInteger a → y.IsInteger b → (f a b).natAbs ≤ 2 ^ 53 →
    ∃ z, op (.finite x) (.finite y) = .finite z ∧ z.IsInteger (f a b)

theorem exact_add : Exact Extended.add (· + ·) := fun _ _ _ _ => Double.exists_add_eq

theorem exact_mul : Exact Extended.mul (· * ·) := fun _ _ _ _ => Double.exists_mul_eq

/-- The loop goes through the partial results of the integers. -/
theorem exists_total_eq (hop : Exact op f) {x : Double} (hx : x.IsInteger start)
    (hitems : ∀ n ∈ items, n.natAbs ≤ 2 ^ 53)
    (hparts : ∀ before, before <+: items → (before.foldl f start).natAbs ≤ 2 ^ 53) :
    ∃ z, total op (.finite x) (items.map ofInt) = .ok (.finite z) ∧ z.IsInteger (items.foldl f start) := by
  induction items generalizing x start with
  | nil => exact ⟨x, rfl, hx⟩
  | cons n rest ih =>
    obtain ⟨hn, hrest⟩ := List.forall_mem_cons.1 hitems
    have hfirst : (f start n).natAbs ≤ 2 ^ 53 := hparts [n] (List.prefix_append [n] rest)
    obtain ⟨y, hy, hvalue⟩ := hop hx (Double.isInteger_ofInt hn) hfirst
    have hlater : ∀ before, before <+: rest → (before.foldl f (f start n)).natAbs ≤ 2 ^ 53 :=
      fun before h => hparts (n :: before) ((List.prefix_cons_inj n).2 h)
    obtain ⟨z, hz, htotal⟩ := ih hvalue hrest hlater
    have hcoerce : (ofInt n).coerceNumber = .ok (.finite (.ofInt n)) := rfl
    refine ⟨z, ?_, htotal⟩
    rw [List.map_cons, total_cons_of_ok hcoerce, hy]
    exact hz

theorem accumulate_exact (hop : Exact op f) (hstart : start.natAbs ≤ 2 ^ 53)
    (hitems : ∀ n ∈ items, n.natAbs ≤ 2 ^ 53)
    (hparts : ∀ before, before <+: items → (before.foldl f start).natAbs ≤ 2 ^ 53) :
    accumulate op start (items.map ofInt) = .ok (ofInt (items.foldl f start)) := by
  obtain ⟨z, hz, htotal⟩ := exists_total_eq hop (Double.isInteger_ofInt hstart) hitems hparts
  rw [accumulate_eq, hz]
  exact Json.ofArithmetic_of_isInteger htotal (hparts items (List.prefix_refl items))

/-! ### Results of operators -/

theorem result_add (operands : List Json) (data : Json) :
    add.result operands data = accumulate Extended.add 0 operands := rfl

theorem result_multiply (operands : List Json) (data : Json) :
    multiply.result operands data = accumulate Extended.mul 1 operands := rfl

theorem result_subtract_one (a data : Json) :
    subtract.result [a] data = a.asNumber >>= fun x => Json.ofArithmetic (.finite x.neg) := rfl

theorem result_subtract_two (a b data : Json) :
    subtract.result [a, b] data = a.asNumber >>= fun x => b.asNumber >>= fun y =>
      Json.ofArithmetic (.sub (.finite x) (.finite y)) := rfl

theorem asNumber_ofInt (n : Int) : (ofInt n).asNumber = .ok (.ofInt n) := rfl

theorem exists_of_accumulate {operands : List Json} {v : Json}
    (h : accumulate op start operands = .ok v) : ∃ x, Json.ofArithmetic x = .ok v := by
  obtain ⟨x, -, hx⟩ := Result.bind_eq_ok.1 h
  exact ⟨x, hx⟩

/-- What sums, products and differences give is written as the result of arithmetic. -/
theorem exists_of_result {o : Operator} (ho : o ∈ [add, multiply, subtract]) {operands : List Json}
    {data v : Json} (h : o.result operands data = .ok v) : ∃ x, Json.ofArithmetic x = .ok v := by
  simp only [List.mem_cons, List.not_mem_nil, or_false] at ho
  rcases ho with rfl | rfl | rfl
  · exact exists_of_accumulate h
  · exact exists_of_accumulate h
  · match operands, h with
    | [], h => cases h
    | [a], h =>
      rw [result_subtract_one] at h
      obtain ⟨x, -, hx⟩ := Result.bind_eq_ok.1 h
      exact ⟨_, hx⟩
    | [a, b], h =>
      rw [result_subtract_two] at h
      obtain ⟨x, -, h⟩ := Result.bind_eq_ok.1 h
      obtain ⟨y, -, hy⟩ := Result.bind_eq_ok.1 h
      exact ⟨_, hy⟩
    | _ :: _ :: _ :: rest, h =>
      have hcount : subtract.arity.accepts (rest.length + 3) = false := by
        simp [arity, Arity.accepts]
      simp [result, hcount] at h

theorem text_zero : (ofInt 0).text = "0" := by decide +kernel

/-- Sums and products of integers of 53 digits are exact while all partial results have 53 digits, and so
are negations and differences. A zero is the integer, whatever the operands are. -/
theorem result_exact (hitems : ∀ n ∈ items, n.natAbs ≤ 2 ^ 53) (data : Json) :
    ((∀ before, before <+: items → before.sum.natAbs ≤ 2 ^ 53) →
      add.result (items.map ofInt) data = .ok (ofInt items.sum)) ∧
    ((∀ before, before <+: items → before.prod.natAbs ≤ 2 ^ 53) →
      multiply.result (items.map ofInt) data = .ok (ofInt items.prod)) ∧
    (∀ a : Int, a.natAbs ≤ 2 ^ 53 → subtract.result [ofInt a] data = .ok (ofInt (-a))) ∧
    (∀ a b : Int, a.natAbs ≤ 2 ^ 53 → b.natAbs ≤ 2 ^ 53 → (a - b).natAbs ≤ 2 ^ 53 →
      subtract.result [ofInt a, ofInt b] data = .ok (ofInt (a - b))) ∧
    ∀ o ∈ [add, multiply, subtract], ∀ operands v, o.result operands data = .ok v →
      ∃ n, v = .num n ∧ (n.units = 0 → v = ofInt 0 ∧ v.text = "0") := by
  refine ⟨fun hparts => ?_, fun hparts => ?_, fun a ha => ?_, fun a b ha hb hab => ?_,
    fun o ho operands v hv => ?_⟩
  · simp only [List.sum_eq_foldl] at hparts ⊢
    rw [result_add]
    exact accumulate_exact exact_add (by decide) hitems hparts
  · simp only [List.prod_eq_foldl] at hparts ⊢
    rw [result_multiply]
    exact accumulate_exact exact_mul (by decide) hitems hparts
  · have hvalue := (Double.isInteger_ofInt ha).neg
    rw [result_subtract_one, Result.bind_eq_ok]
    exact ⟨_, asNumber_ofInt a, Json.ofArithmetic_of_isInteger hvalue (by omega)⟩
  · rw [Int.sub_eq_add_neg] at hab ⊢
    obtain ⟨z, hz, hvalue⟩ :=
      Double.exists_add_eq (Double.isInteger_ofInt ha) (Double.isInteger_ofInt hb).neg hab
    have hsub : Extended.sub (.finite (.ofInt a)) (.finite (.ofInt b)) = .finite z := hz
    rw [result_subtract_two, Result.bind_eq_ok]
    refine ⟨_, asNumber_ofInt a, Result.bind_eq_ok.2 ⟨_, asNumber_ofInt b, ?_⟩⟩
    rw [hsub]
    exact Json.ofArithmetic_of_isInteger hvalue hab
  · obtain ⟨x, hx⟩ := exists_of_result ho hv
    obtain ⟨n, rfl, hn⟩ := Json.exists_of_ofArithmetic hx
    refine ⟨n, rfl, fun hunits => ?_⟩
    rw [hn hunits]
    exact ⟨rfl, text_zero⟩

/-- The greatest partial results, and zeros that are negative as doubles. -/
theorem result_exact_greatest :
    let greatest : Int := 9007199254740992
    add.result [ofInt greatest, ofInt (-1), ofInt 0] .null = .ok (ofInt 9007199254740991) ∧
    multiply.result [ofInt greatest, ofInt (-1), ofInt 0] .null = .ok (ofInt 0) ∧
    subtract.result [ofInt 0] .null = .ok (ofInt 0) ∧
    subtract.result [ofInt (-1), ofInt (greatest - 1)] .null = .ok (ofInt (-greatest)) := by
  intro greatest
  have hitems : ∀ n ∈ [greatest, -1, 0], n.natAbs ≤ 2 ^ 53 := by decide
  have hsums : ∀ before ∈ [greatest, -1, 0].inits, before.sum.natAbs ≤ 2 ^ 53 := by decide
  have hproducts : ∀ before ∈ [greatest, -1, 0].inits, before.prod.natAbs ≤ 2 ^ 53 := by decide
  obtain ⟨hadd, hmultiply, hnegate, hsubtract, -⟩ := result_exact hitems .null
  exact ⟨hadd fun before h => hsums before ((List.mem_inits _ _).2 h),
    hmultiply fun before h => hproducts before ((List.mem_inits _ _).2 h),
    hnegate 0 (by decide), hsubtract (-1) (greatest - 1) (by decide) (by decide) (by decide)⟩

end Operator
end JsonRules
