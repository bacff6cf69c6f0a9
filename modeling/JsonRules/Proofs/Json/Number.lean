import JsonRules.Json
import JsonRules.Json.Compare
import JsonRules.Proofs.Double.Exact
import JsonRules.Proofs.Double.Nearest

/-!
# Numbers by value and values by truth

`Number.units` is the value of a number of either kind. Arithmetic gives its finite results by value: an
integral double becomes the integer that it is, where a signed word holds it (`exists_ofExtended?_eq`,
`ofExtended?_of_isInteger`). So a zero is always the integer (`eq_zero_of_ofExtended?`), and what is read back has
the value of the result (`units_toDouble_of_ofExtended?`).

Eight values do not count as true: `Json.falsyValues` is the list, and `Json.truthy_eq_false_iff` says that it
is complete.
-/

namespace JsonRules

/-! ## The value of a number -/

namespace Number

/-- The value of a number, in units. -/
def units : Number → Int
  | .int n => n * unitsPerOne
  | .double x => x.units

theorem ofExtended?_of_isInteger {x : Double} {k : Int} (h : x.IsInteger k) (hk : IsSigned k) :
    ofExtended? (.finite x) = some (.int k) := by
  unfold ofExtended?
  dsimp only
  rw [h.isWhole, h.isWithinWords_iff.2 hk, h.toInt_toWord hk]
  rfl

/-- A double that stands for no signed word stays as it is. -/
theorem ofExtended?_of_not_isInteger {x : Double} (h : ∀ k, x.IsInteger k → ¬IsSigned k) :
    ofExtended? (.finite x) = some (.double x) := by
  have hword : (x.isWhole && x.isWithinWords) = false := by
    by_contra hword
    obtain ⟨hwhole, hwithin⟩ := Bool.and_eq_true_iff.1 (Bool.not_eq_false _ ▸ hword)
    obtain ⟨k, hk⟩ := Double.isWhole_iff.1 hwhole
    exact h k hk (hk.isWithinWords_iff.1 hwithin)
  unfold ofExtended?
  dsimp only
  rw [hword]
  rfl

theorem exists_ofExtended?_eq (x : Double) :
    ∃ n, ofExtended? (.finite x) = some n ∧ n.units = x.units := by
  by_cases h : ∃ k, x.IsInteger k ∧ IsSigned k
  · obtain ⟨k, hinteger, hk⟩ := h
    exact ⟨_, ofExtended?_of_isInteger hinteger hk, hinteger.symm⟩
  · have hnot : ∀ k, x.IsInteger k → ¬IsSigned k := fun k hinteger hk => h ⟨k, hinteger, hk⟩
    exact ⟨_, ofExtended?_of_not_isInteger hnot, rfl⟩

theorem inRange_of_ofExtended? {x : Extended} {n : Number} (h : ofExtended? x = some n) : n.InRange := by
  cases n with
  | double => trivial
  | int k =>
    cases x with
    | infinite | nan => cases h
    | finite x =>
      by_cases hsigned : ∃ k, x.IsInteger k ∧ IsSigned k
      · obtain ⟨j, hinteger, hj⟩ := hsigned
        rw [ofExtended?_of_isInteger hinteger hj] at h
        cases h
        obtain ⟨hlow, hhigh⟩ := hj
        exact ⟨hlow, by omega⟩
      · rw [ofExtended?_of_not_isInteger fun j hinteger hj => hsigned ⟨j, hinteger, hj⟩] at h
        cases h

/-- What arithmetic gives is read back as a double of the same value. -/
theorem units_toDouble_of_ofExtended? {x : Double} {n : Number} (h : ofExtended? (.finite x) = some n) :
    n.toDouble.units = x.units := by
  obtain ⟨m, hm, hunits⟩ := exists_ofExtended?_eq x
  obtain rfl : m = n := Option.some.inj (hm.symm.trans h)
  cases m with
  | double => exact hunits
  | int k =>
    -- the integer is the value of a double already, so it is not rounded
    have hvalue : k * unitsPerOne = x.units := hunits
    show (Double.ofInt k).units = x.units
    rw [Double.units_ofInt (inRange_of_ofExtended? h), ← Double.nearest_mul_unitsPerOne, hvalue,
      Double.nearest_units]

/-- Arithmetic gives no zero but the integer. -/
theorem eq_zero_of_ofExtended? {x : Extended} {n : Number} (h : ofExtended? x = some n)
    (hn : n.units = 0) : n = .int 0 := by
  cases x with
  | infinite | nan => cases h
  | finite x =>
    obtain ⟨m, hm, hunits⟩ := exists_ofExtended?_eq x
    obtain rfl : m = n := Option.some.inj (hm.symm.trans h)
    have hzero : x.IsInteger 0 := by rw [Double.isInteger_zero_iff, ← hunits, hn]
    exact Option.some.inj (h.symm.trans (ofExtended?_of_isInteger hzero (by decide)))

end Number

/-! ## Values that do not count as true -/

namespace Json

/-- Null, false, the zeros, and what is empty. -/
def falsyValues : List Json :=
  [.null, .bool false, .num (.int 0), .num (.double (.zero false)), .num (.double (.zero true)),
    .str "", .arr [], .obj []]

theorem truthy_eq_false_of_mem {v : Json} (h : v ∈ falsyValues) : v.truthy = false := by
  simp only [falsyValues, List.mem_cons, List.not_mem_nil, or_false] at h
  rcases h with rfl | rfl | rfl | rfl | rfl | rfl | rfl | rfl
  case inr.inr.inl => decide +kernel
  all_goals rfl

theorem truthy_eq_false_iff {v : Json} : v.truthy = false ↔ v ∈ falsyValues := by
  refine ⟨fun h => ?_, truthy_eq_false_of_mem⟩
  cases v with
  | null => simp [falsyValues]
  | bool b =>
    obtain rfl : b = false := h
    simp [falsyValues]
  | num n =>
    have hzero : n.toDouble.isZero = true := by simpa [truthy] using h
    cases n with
    | int n =>
      obtain rfl := Double.isZero_ofInt.1 hzero
      simp [falsyValues]
    | double x =>
      obtain ⟨negative, rfl⟩ : ∃ negative, x = .zero negative :=
        ⟨x.negative, Double.eq_zero_of_isZero hzero⟩
      cases negative <;> simp [falsyValues]
  | str s =>
    obtain rfl : s = "" := by simpa [truthy] using h
    simp [falsyValues]
  | arr items =>
    obtain rfl : items = [] := by simpa [truthy] using h
    simp [falsyValues]
  | obj fields =>
    obtain rfl : fields = [] := by simpa [truthy] using h
    simp [falsyValues]

end Json
end JsonRules
