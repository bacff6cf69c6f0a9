import JsonRules.Proofs.Double.Value
import JsonRules.Proofs.Engine.Agree
import JsonRules.Proofs.Engine.Iteration
import JsonRules.Proofs.Engine.Threshold
import JsonRules.Proofs.Rule.Arithmetic

/-!
# Reductions that fold an operator

A loop of arithmetic goes from double to double and writes the last one as a value. The same loop can write
every result as a value and read it again for the next step. What is written is read as a double of the same
value (`Json.exists_ofArithmetic_toDouble`), and only what is finite can be written. So the two loops come to
the same value, or both find a mismatch, perhaps not the same one (`matches_accumulate`).

A reduction whose predicate applies an operator to the accumulator and the current item goes through the
results of the operator on two operands (`run_fold_alike`). With sums and products this is the operator on
all items at once (`evaluate_fold`).
-/

namespace JsonRules

/-! ## Loops that write their result down -/

/-- Two results are the same value or two mismatches. -/
inductive Result.Matches {α : Type} : Result α → Result α → Prop where
  | value (v : α) : Result.Matches (.ok v) (.ok v)
  | mismatch (m m' : Mismatch) : Result.Matches (.error (.typeMismatch m)) (.error (.typeMismatch m'))

namespace Json

variable {x y : Double} {t : Extended} {v : Json} {e : RuleError}

/-- A double is written as a number that is read as a double of the same value. -/
theorem exists_ofArithmetic_toDouble (x : Double) :
    ∃ n, ofArithmetic (.finite x) = .ok (.num n) ∧ n.toDouble.units = x.units := by
  obtain ⟨n, hn, -⟩ := Number.exists_ofExtended?_eq x
  refine ⟨n, ?_, Number.units_toDouble_of_ofExtended? hn⟩
  unfold ofArithmetic
  rw [hn]

theorem ofArithmetic_congr (h : x.units = y.units) : ofArithmetic (.finite x) = ofArithmetic (.finite y) := by
  cases hx : x.isZero with
  | false => rw [Double.eq_of_units_eq h hx]
  | true =>
    have hzero : x.IsInteger 0 := Double.isInteger_zero_iff.2 (Double.isZero_iff.1 hx)
    have hzero' : y.IsInteger 0 := Double.isInteger_zero_iff.2 (h ▸ Double.isZero_iff.1 hx)
    rw [ofArithmetic_of_isInteger hzero (by decide), ofArithmetic_of_isInteger hzero' (by decide)]

theorem exists_mismatch_of_ofArithmetic (h : t.units? = none) :
    ∃ m, ofArithmetic t = .error (.typeMismatch m) := by
  cases t with
  | finite => cases h
  | infinite | nan => exact ⟨_, rfl⟩

theorem exists_mismatch_of_coerceNumber (h : v.coerceNumber = .error e) : ∃ m, e = .typeMismatch m := by
  unfold coerceNumber asNumber at h
  split at h
  · split at h
    · cases h
    · cases h
      exact ⟨_, rfl⟩
  · split at h
    · cases h
    · cases h
      exact ⟨_, rfl⟩

end Json

namespace Operator

variable {op : Extended → Extended → Extended} {start : Int} {x : Double} {t w : Extended} {acc v : Json}
  {e : RuleError}

/-- What is not finite any more does not become finite again. -/
theorem exists_mismatch_of_total (h : Extended.Accumulates op start) (ht : t.units? = none)
    (operands : List Json) :
    ∃ m, total op t operands >>= Json.ofArithmetic = .error (.typeMismatch m) := by
  induction operands generalizing t with
  | nil => exact Json.exists_mismatch_of_ofArithmetic ht
  | cons v rest ih =>
    cases hv : v.coerceNumber with
    | ok w =>
      rw [total_cons_of_ok hv]
      exact ih (h.absorb ht w)
    | error e =>
      obtain ⟨m, rfl⟩ := Json.exists_mismatch_of_coerceNumber hv
      rw [total_cons_of_error hv]
      exact ⟨m, rfl⟩

/-! ### One step -/

/-- From the written result a step goes to the value that it goes to from the double, if there is any. -/
theorem exists_accumulate_pair_eq (h : Extended.Accumulates op start)
    (hacc : Json.ofArithmetic (.finite x) = .ok acc) (hv : v.coerceNumber = .ok w) :
    ∃ t, accumulate op start [acc, v] = Json.ofArithmetic t ∧ t.units? = (op (.finite x) w).units? := by
  obtain ⟨n, hn, hunits⟩ := Json.exists_ofArithmetic_toDouble x
  obtain rfl : Json.num n = acc := Except.ok.inj (hn.symm.trans hacc)
  obtain ⟨y, hy, hvalue⟩ := Extended.units?_eq_some.1 (h.neutral n.toDouble)
  refine ⟨op (.finite y) w, ?_, h.congr (hvalue.trans hunits) w⟩
  rw [accumulate_eq, total_cons_of_ok rfl, total_cons_of_ok hv, hy]
  rfl

theorem accumulate_pair_of_error (hacc : Json.ofArithmetic (.finite x) = .ok acc)
    (hv : v.coerceNumber = .error e) : accumulate op start [acc, v] = .error e := by
  obtain ⟨n, rfl, -⟩ := Json.exists_of_ofArithmetic hacc
  rw [accumulate_eq, total_cons_of_ok rfl, total_cons_of_error hv]
  rfl

/-! ### The loop -/

/-- The two loops from anywhere on, where the accumulator of the one is the double of the other as a value. -/
theorem matches_total (h : Extended.Accumulates op start) (hacc : Json.ofArithmetic (.finite x) = .ok acc)
    (items : List Json) :
    Result.Matches (items.foldlM (fun acc v => accumulate op start [acc, v]) acc)
      (total op (.finite x) items >>= Json.ofArithmetic) := by
  induction items generalizing x acc with
  | nil =>
    show Result.Matches (.ok acc) (Json.ofArithmetic (.finite x))
    rw [hacc]
    exact .value acc
  | cons v rest ih =>
    rw [List.foldlM_cons]
    cases hv : v.coerceNumber with
    | error e =>
      obtain ⟨m, rfl⟩ := Json.exists_mismatch_of_coerceNumber hv
      rw [accumulate_pair_of_error hacc hv, total_cons_of_error hv]
      exact .mismatch m m
    | ok w =>
      obtain ⟨t, ht, hvalue⟩ := exists_accumulate_pair_eq h hacc hv
      rw [ht, total_cons_of_ok hv]
      cases hu : (op (.finite x) w).units? with
      | none =>
        -- the written loop fails at once, the other one at its end
        obtain ⟨m, hm⟩ := Json.exists_mismatch_of_ofArithmetic (hvalue.trans hu)
        obtain ⟨m', hm'⟩ := exists_mismatch_of_total h hu rest
        rw [hm, hm']
        exact .mismatch m m'
      | some u =>
        obtain ⟨y, rfl, hy⟩ := Extended.units?_eq_some.1 (hvalue.trans hu)
        obtain ⟨z, hz, hunits⟩ := Extended.units?_eq_some.1 hu
        obtain ⟨n, hn, -⟩ := Json.exists_ofArithmetic_toDouble z
        rw [hz, Json.ofArithmetic_congr (hy.trans hunits.symm), hn]
        exact ih hn

theorem matches_accumulate (h : Extended.Accumulates op start) (hstart : start.natAbs ≤ 2 ^ 53)
    (items : List Json) :
    Result.Matches (items.foldlM (fun acc v => accumulate op start [acc, v]) (Json.ofInt start))
      (accumulate op start items) :=
  matches_total h (Json.ofArithmetic_of_isInteger (Double.isInteger_ofInt hstart) hstart) items

end Operator

/-! ## Reductions -/

open Program

namespace Node

variable {op : Operator} {f : List Json → Result Json}

/-- The tree of the predicate of `Operator.fold`. -/
def foldStep (op : Operator) : Node :=
  .operation op [.operation .var [.literal (.str "accumulator")], .operation .var [.literal (.str "current")]]

/-- The tree of `Operator.fold`. -/
def fold (op : Operator) (items : List Json) (initial : Json) : Node :=
  .iteration .reduce (.literal (.arr items)) (foldStep op) (some (.literal initial))

theorem untraced_evaluate_foldStep (hop : ∀ operands data, op.perform operands data = .ofResult (f operands))
    (item acc : Json) :
    ((foldStep op).evaluate (Json.reduction item acc)).untraced = ofResult (f [acc, item]) := by
  have hevaluate : (foldStep op).evaluate (Json.reduction item acc) =
      .note (.dispatch .var 1) (.note (.dispatch .var 1) (.note (.dispatch op 2)
        (op.perform [acc, item] (Json.reduction item acc)))) := rfl
  rw [hevaluate, hop, untraced_note_of_isTrace rfl, untraced_note_of_isTrace rfl, untraced_note_of_isTrace rfl,
    untraced_ofResult]

theorem untraced_iterate_foldStep (hop : ∀ operands data, op.perform operands data = .ofResult (f operands))
    (items : List Json) (initial : Json) :
    (Operator.reduce.iterate (foldStep op).evaluate items (some initial)).untraced =
      ofResult (items.foldlM (fun acc v => f [acc, v]) initial) := by
  show (items.foldlM (fun acc v => (foldStep op).evaluate (Json.reduction v acc)) initial).untraced = _
  rw [untraced_foldlM, ← foldlM_ofResult]
  simp only [untraced_evaluate_foldStep hop]

end Node

theorem Rule.compile_fold {op : Operator} {limit : Nat} (hop : op ∈ [.add, .multiply]) (hlimit : 3 ≤ limit)
    (items : List Json) (start : Int) :
    compile limit (op.fold items (.ofInt start)) = .ok (.fold op items (.ofInt start)) := by
  have hthree : compile 3 (op.fold items (.ofInt start)) = .ok (.fold op items (.ofInt start)) := by
    simp only [List.mem_cons, List.not_mem_nil, or_false] at hop
    rcases hop with rfl | rfl
    · rfl
    · rfl
  have hdeep : compile 3 (op.fold items (.ofInt start)) ≠ .error (.depthLimitExceeded 3) := by
    rw [hthree]
    exact nofun
  rw [compile_of_le hlimit hdeep, hthree]

namespace Engine

variable {σ : Type} {op : Operator} {f : List Json → Result Json}

/-- The run calls no host function, and its result is that of the loop over the results on two operands. -/
theorem run_fold_alike (hop : ∀ operands data, op.perform operands data = .ofResult (f operands)) (mode : Mode)
    (r : Registry σ) (items : List Json) (initial data : Json) (s : σ) :
    (run mode r (.fold op items initial) data s).Alike
      ⟨items.foldlM (fun acc v => f [acc, v]) initial, s, []⟩ := by
  have hloop := Node.untraced_iterate_foldStep hop items initial
  rw [← untraced_ofResult] at hloop
  have halike := run_alike hloop (r.host mode) s
  have hrun := run_iteration_literal mode r .reduce items (.foldStep op) (some initial) data s
  rw [run_ofResult, ← hrun] at halike
  exact halike

theorem result_evaluate_fold {e : Engine} (he : 3 ≤ e.maxDepth) (hmember : op ∈ [.add, .multiply])
    (hop : ∀ operands data, op.perform operands data = .ofResult (f operands)) (mode : Mode) (r : Registry σ)
    (items : List Json) (start : Int) (data : Json) (s : σ) :
    (e.evaluate mode r (op.fold items (.ofInt start)) data s).result =
      items.foldlM (fun acc v => f [acc, v]) (.ofInt start) := by
  have hevaluate := evaluate_alike (Rule.compile_fold hmember he items start) mode r data s
  have hrun := run_fold_alike hop mode r items (.ofInt start) data s
  exact (hevaluate.trans hrun).result.symm

/-- Reducing items with a sum from zero gives the sum of the items, and reducing them with a product from one
their product: the same value on both sides, or a mismatch on both. The operands in the predicate of the
reduction are at depth three. -/
theorem evaluate_fold {e : Engine} (he : 3 ≤ e.maxDepth) (mode : Mode) (r : Registry σ) (items : List Json)
    (data : Json) (s : σ) :
    Result.Matches (e.evaluate mode r (Operator.add.fold items (.ofInt 0)) data s).result
      (Operator.add.result items data) ∧
    Result.Matches (e.evaluate mode r (Operator.multiply.fold items (.ofInt 1)) data s).result
      (Operator.multiply.result items data) := by
  constructor
  · rw [result_evaluate_fold he (by decide) (fun _ _ => rfl), Operator.result_add]
    exact Operator.matches_accumulate Extended.accumulates_add (by decide) items
  · rw [result_evaluate_fold he (by decide) (fun _ _ => rfl), Operator.result_multiply]
    exact Operator.matches_accumulate Extended.accumulates_mul (by decide) items

/-- Numerals whose sum is an integer though its parts are not, and a product that leaves the doubles before
its last factor could bring it back. -/
theorem evaluate_fold_numerals :
    let items : List Json := [.str " 2.5", .bool true, .str "5e-1"]
    let beyond : List Json := [.str "1e308", .str "1e308", .str "1e-308"]
    let r : Registry Tally := Registry.empty
    3 ≤ ({} : Engine).maxDepth ∧
    Result.Matches (evaluate {} .async r (Operator.add.fold items (.ofInt 0)) .null [0]).result
      (Operator.add.result items .null) ∧
    (Operator.add.result items .null).toOption.map Json.text = some "4" ∧
    Result.Matches (evaluate {} .async r (Operator.multiply.fold beyond (.ofInt 1)) .null [0]).result
      (Operator.multiply.result beyond .null) ∧
    (Operator.multiply.result beyond .null).toOption.map Json.text = none := by
  intro items beyond r
  have hdepth : 3 ≤ ({} : Engine).maxDepth := by decide
  obtain ⟨hsum, -⟩ := evaluate_fold hdepth .async r items .null [0]
  obtain ⟨-, hproduct⟩ := evaluate_fold hdepth .async r beyond .null [0]
  exact ⟨hdepth, hsum, by decide +kernel, hproduct, by decide +kernel⟩

end Engine
end JsonRules
