import JsonRules.Proofs.Double.Nearest
import JsonRules.Proofs.Rule.Comparison

/-!
# Comparisons of integers

Integers are compared as doubles. Two integers whose nearest doubles are one are confused: they are equal
by number and tie in the order, and no pair is put in the wrong order (`compareValues_ofInt`). Integers of
53 digits are confused with no other.
-/

namespace JsonRules

namespace Double

variable {a b : Int}

/-- Two integers that count as the same double. -/
def Confused (a b : Int) : Prop := a ≠ b ∧ nearest a = nearest b

instance (a b : Int) : Decidable (Confused a b) := inferInstanceAs (Decidable (_ ∧ _))

theorem not_confused (h : a.natAbs < 2 ^ 53) : ¬Confused a b := fun hconfused =>
  hconfused.1 (eq_of_nearest_eq h hconfused.2)

theorem compare_nearest (a b : Int) :
    compare (nearest a) (nearest b) = if Confused a b then .eq else compare a b := by
  by_cases hconfused : Confused a b
  · rw [if_pos hconfused, hconfused.2, compare_eq_iff_eq]
  · rw [if_neg hconfused]
    rcases Int.lt_trichotomy a b with hlt | rfl | hgt
    · have hne : nearest a ≠ nearest b := fun h => hconfused ⟨Int.ne_of_lt hlt, h⟩
      have hmono := nearest_mono (Int.le_of_lt hlt)
      rw [compare_lt_iff_lt.2 hlt, compare_lt_iff_lt]
      omega
    · rw [compare_eq_iff_eq.2 rfl, compare_eq_iff_eq.2 rfl]
    · have hne : nearest a ≠ nearest b := fun h => hconfused ⟨Int.ne_of_gt hgt, h⟩
      have hmono := nearest_mono (Int.le_of_lt hgt)
      rw [compare_gt_iff_gt.2 hgt, compare_gt_iff_gt]
      omega

end Double

open Double (Confused)

namespace Json

variable {a b : Int}

theorem compareValues_ofInt (ha : (Number.int a).InRange) (hb : (Number.int b).InRange) :
    (ofInt a).compareValues (ofInt b) = .ok (if Confused a b then .eq else compare a b) := by
  refine compareValues_eq_ok.2 (order?_eq_ok.2 (.inr (orderScalars_eq_ok.2 (.inr ?_))))
  refine ⟨.ofInt a, .ofInt b, rfl, rfl, ?_⟩
  rw [Double.order_ofInt ha hb, Double.compare_nearest]

theorem equal_ofInt (ha : (Number.int a).InRange) (hb : (Number.int b).InRange) :
    (ofInt a).equal (ofInt b) = decide (a = b ∨ Confused a b) := by
  have horder := compareValues_eq_ok.1 (compareValues_ofInt ha hb)
  rw [Bool.eq_iff_iff, ← order?_eq_iff horder, decide_eq_true_iff]
  by_cases hconfused : Confused a b
  · rw [if_pos hconfused]
    exact iff_of_true rfl (.inr hconfused)
  · rw [if_neg hconfused, compare_eq_iff_eq, or_iff_left hconfused]

end Json

namespace Operator

open Json

variable {a b : Int} {items : List Int}

theorem isMember_ofInt (ha : (Number.int a).InRange) (hitems : ∀ n ∈ items, (Number.int n).InRange) :
    isMember (ofInt a) (.arr (items.map ofInt)) = .ok (decide (∃ n ∈ items, a = n ∨ Confused a n)) := by
  have hany : ((items.map ofInt).any ((ofInt a).equal ·)) =
      decide (∃ n ∈ items, a = n ∨ Confused a n) := by
    rw [Bool.eq_iff_iff, List.any_map, List.any_eq_true, decide_eq_true_iff]
    refine exists_congr fun n => and_congr_right fun hn => ?_
    rw [Function.comp_apply, equal_ofInt ha (hitems n hn), decide_eq_true_iff]
  exact congrArg _ hany

/-- Among integers there is an extremum, and only what is confused with it can be beyond it. -/
theorem exists_extremum_ofInt {o : Ordering} {replaces : Ordering → Bool} (ho : o ≠ .eq)
    (hreplaces : ∀ o', replaces o' = true ↔ o' = o) (h : ∀ n ∈ a :: items, (Number.int n).InRange) :
    ∃ m ∈ a :: items, extremum replaces (ofInt a) (items.map ofInt) = .ok (ofInt m) ∧
      ∀ n ∈ a :: items, compare m n = o ∨ m = n ∨ Confused m n := by
  have hpairs : ((a :: items).map ofInt).Pairwise Comparable := by
    rw [List.pairwise_map]
    refine List.Pairwise.imp_of_mem (R := fun _ _ => True) (fun hm hn _ => ?_) ?_
    · exact ⟨_, compareValues_ofInt (h _ hm) (h _ hn)⟩
    · exact List.pairwise_of_forall fun _ _ => trivial
  obtain ⟨v, hv⟩ := exists_extremum replaces hpairs
  have hfirst : (ofInt a).Leads o [ofInt a] := ⟨[], [], rfl, nofun, nofun⟩
  have hleads : v.Leads o ((a :: items).map ofInt) := leads_extremum ho hreplaces hfirst hv
  obtain ⟨m, hm, rfl⟩ := List.mem_map.1 hleads.mem
  refine ⟨m, hm, hv, fun n hn => ?_⟩
  have horder := hleads.order_of_mem (List.mem_map_of_mem hn)
  rw [compareValues_ofInt (h m hm) (h n hn)] at horder
  by_cases hconfused : Confused m n
  · exact .inr (.inr hconfused)
  · rw [if_neg hconfused] at horder
    rcases horder with hself | hbeyond | htie
    · cases hself
      exact .inr (.inl rfl)
    · exact .inl (Except.ok.inj hbeyond)
    · exact .inr (.inl (compare_eq_iff_eq.1 (Except.ok.inj htie)))

theorem result_greater_ofInt (ha : (Number.int a).InRange) (hb : (Number.int b).InRange) (data : Json) :
    greater.result [ofInt a, ofInt b] data = .ok (.bool (decide (b < a ∧ ¬Confused a b))) := by
  have hresult : greater.result [ofInt a, ofInt b] data =
      (fun o => .bool o.isGT) <$> (ofInt a).compareValues (ofInt b) := rfl
  have horder : (if Confused a b then .eq else compare a b).isGT = decide (b < a ∧ ¬Confused a b) := by
    by_cases hconfused : Confused a b
    · rw [if_pos hconfused, decide_eq_false fun h => h.2 hconfused]
      rfl
    · rw [if_neg hconfused, Bool.eq_iff_iff, Ordering.isGT_iff_eq_gt, compare_gt_iff_gt,
        decide_eq_true_iff, and_iff_left hconfused]
  rw [hresult, compareValues_ofInt ha hb, ← horder]
  rfl

theorem result_less_ofInt (ha : (Number.int a).InRange) (hb : (Number.int b).InRange) (data : Json) :
    less.result [ofInt a, ofInt b] data = .ok (.bool (decide (a < b ∧ ¬Confused a b))) := by
  have hresult : less.result [ofInt a, ofInt b] data =
      .ok (.bool ((ofInt a).ordered Ordering.isLT (ofInt b))) := rfl
  rw [hresult, Except.ok.injEq, bool.injEq, Bool.eq_iff_iff, ordered_isLT, compareValues_ofInt ha hb,
    decide_eq_true_iff]
  by_cases hconfused : Confused a b
  · rw [if_pos hconfused]
    exact iff_of_false nofun fun h => h.2 hconfused
  · rw [if_neg hconfused, Except.ok.injEq, compare_lt_iff_lt, and_iff_left hconfused]

/-- Comparisons of integers are exact but for pairs that are confused: these are taken for one integer,
and never for a pair in the other order. An integer of 53 digits is not confused with any. -/
theorem result_integers (ha : (Number.int a).InRange) (hb : (Number.int b).InRange)
    (hitems : ∀ n ∈ items, (Number.int n).InRange) (data : Json) :
    (ofInt a).equal (ofInt b) = decide (a = b ∨ Confused a b) ∧
    (ofInt a).compareValues (ofInt b) = .ok (if Confused a b then .eq else compare a b) ∧
    contains.result [ofInt a, .arr (items.map ofInt)] data =
      .ok (.bool (decide (∃ n ∈ items, a = n ∨ Confused a n))) ∧
    greater.result [ofInt a, ofInt b] data = .ok (.bool (decide (b < a ∧ ¬Confused a b))) ∧
    less.result [ofInt a, ofInt b] data = .ok (.bool (decide (a < b ∧ ¬Confused a b))) ∧
    (∃ m ∈ a :: items, min.result ((a :: items).map ofInt) data = .ok (ofInt m) ∧
      ∀ n ∈ a :: items, m ≤ n ∨ Confused m n) ∧
    (∃ m ∈ a :: items, max.result ((a :: items).map ofInt) data = .ok (ofInt m) ∧
      ∀ n ∈ a :: items, n ≤ m ∨ Confused m n) ∧
    (a.natAbs < 2 ^ 53 → ¬Confused a b) := by
  have hall : ∀ n ∈ a :: items, (Number.int n).InRange := List.forall_mem_cons.2 ⟨ha, hitems⟩
  refine ⟨equal_ofInt ha hb, compareValues_ofInt ha hb, ?_, result_greater_ofInt ha hb data,
    result_less_ofInt ha hb data, ?_, ?_, Double.not_confused⟩
  · have hresult : contains.result [ofInt a, .arr (items.map ofInt)] data =
        .bool <$> isMember (ofInt a) (.arr (items.map ofInt)) := rfl
    rw [hresult, isMember_ofInt ha hitems]
    rfl
  · obtain ⟨m, hm, hresult, hleast⟩ :=
      exists_extremum_ofInt (o := .lt) nofun (fun _ => Ordering.isLT_iff_eq_lt) hall
    refine ⟨m, hm, ?_, fun n hn => ?_⟩
    · rw [List.map_cons, result_min, hresult]
    · rcases hleast n hn with hlt | rfl | hconfused
      · exact .inl (Int.le_of_lt (compare_lt_iff_lt.1 hlt))
      · exact .inl (Int.le_refl _)
      · exact .inr hconfused
  · obtain ⟨m, hm, hresult, hgreatest⟩ :=
      exists_extremum_ofInt (o := .gt) nofun (fun _ => Ordering.isGT_iff_eq_gt) hall
    refine ⟨m, hm, ?_, fun n hn => ?_⟩
    · rw [List.map_cons, result_max, hresult]
    · rcases hgreatest n hn with hgt | rfl | hconfused
      · exact .inl (Int.le_of_lt (compare_gt_iff_gt.1 hgt))
      · exact .inl (Int.le_refl _)
      · exact .inr hconfused

/-- The greatest integer of 53 digits is told apart from the next two, which are confused with each other. -/
theorem result_integers_digits :
    let a : Int := 9007199254740991
    let b : Int := 9007199254740993
    (ofInt a).equal (ofInt b) = false ∧ (ofInt a).compareValues (ofInt b) = .ok .lt ∧
    contains.result [ofInt a, .arr [ofInt 9007199254740992, ofInt b]] .null = .ok (.bool false) ∧
    min.result [ofInt a, ofInt 9007199254740992, ofInt b] .null = .ok (ofInt a) := by
  intro a b
  have hitems : ∀ n ∈ [9007199254740992, b], (Number.int n).InRange := by decide
  have hdigits : ∀ n, ¬Confused a n := fun n => Double.not_confused (by decide)
  obtain ⟨hequal, horder, hmember, -, -, ⟨m, hm, hmin, hleast⟩, -, -⟩ :=
    result_integers (a := a) (b := b) (by decide) (by decide) hitems .null
  have hfound : ¬∃ n ∈ [9007199254740992, b], a = n ∨ Confused a n := by
    simp [hdigits, a, b]
  obtain rfl : m = a := by
    rcases hleast a List.mem_cons_self with hle | hconfused
    · simp only [List.mem_cons, List.not_mem_nil, or_false] at hm
      omega
    · exact absurd ⟨hconfused.1.symm, hconfused.2.symm⟩ (hdigits m)
  rw [decide_eq_false (by simp [hdigits, a, b])] at hequal
  rw [if_neg (hdigits b)] at horder
  rw [decide_eq_false hfound] at hmember
  exact ⟨hequal, horder, hmember, hmin⟩

/-- The first two integers that are confused. -/
theorem result_integers_confused :
    (ofInt 9007199254740993).equal (ofInt 9007199254740992) = true ∧
    (ofInt 9007199254740993).compareValues (ofInt 9007199254740992) = .ok .eq := by
  decide +kernel

end Operator
end JsonRules
