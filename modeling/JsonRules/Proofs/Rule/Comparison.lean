import JsonRules.Proofs.List
import JsonRules.Proofs.Rule.Congruence
import JsonRules.Proofs.Rule.Reordered

/-!
# Comparisons of many operands

A chain compares neighbours only, and an extremum each operand with the best so far only. As the order
of values is transitive, comparability included, the first says how all pairs are ordered
(`result_less`), and the second how the operand that it gives is ordered against all others
(`result_extremum`).
-/

namespace JsonRules

/-- An order that is accepted does not go down, and two of them in a row make one that is accepted. -/
structure Ascending (accept : Ordering → Bool) : Prop where
  ne_gt {o : Ordering} (h : accept o = true) : o ≠ .gt
  trans {o o' : Ordering} (h : accept o = true) (h' : accept o' = true) : accept (o.then o') = true

theorem ascending_isLT : Ascending Ordering.isLT where
  ne_gt {o} h := by
    rintro rfl
    cases h
  trans {_ o'} h _ := by
    rw [Ordering.isLT_iff_eq_lt.1 h]
    rfl

theorem ascending_isLE : Ascending Ordering.isLE where
  ne_gt h := Ordering.isLE_iff_ne_gt.1 h
  trans h h' := by
    rcases Ordering.isLE_iff_eq_lt_or_eq_eq.1 h with rfl | rfl
    · rfl
    · exact h'

namespace Json

/-- A value is the first of those operands that no other goes beyond in a direction: it goes beyond all
before it, and beyond or as far as all after it. -/
def Leads (o : Ordering) (v : Json) (operands : List Json) : Prop :=
  ∃ before after, operands = before ++ v :: after ∧
    (∀ w ∈ before, v.compareValues w = .ok o) ∧
    ∀ w ∈ after, v.compareValues w = .ok o ∨ v.compareValues w = .ok .eq

/-- Two values have an order. -/
def Comparable (v w : Json) : Prop := ∃ o, v.compareValues w = .ok o

variable {a b c : Json} {o o' : Ordering} {accept : Ordering → Bool}

theorem compareValues_swap (h : a.compareValues b = .ok o) : b.compareValues a = .ok o.swap :=
  compareValues_eq_ok.2 (order?_swap (compareValues_eq_ok.1 h))

theorem ordered_trans (haccept : Ascending accept) (hab : a.ordered accept b = true)
    (hbc : b.ordered accept c = true) : a.ordered accept c = true := by
  obtain ⟨o, ho, hacc⟩ := ordered_eq_true.1 hab
  obtain ⟨o', ho', hacc'⟩ := ordered_eq_true.1 hbc
  have hac := order?_trans ho ho' (haccept.ne_gt hacc) (haccept.ne_gt hacc')
  exact ordered_eq_true.2 ⟨o.then o', hac, haccept.trans hacc hacc'⟩

/-- An order goes on through ties and through orders of its own direction. -/
theorem compareValues_trans (ho : o ≠ .eq) (hab : a.compareValues b = .ok o)
    (hbc : b.compareValues c = .ok o ∨ b.compareValues c = .ok .eq) : a.compareValues c = .ok o := by
  have hnext : ∃ o', b.order? c = .ok o' ∧ (o' = o ∨ o' = .eq) := by
    rcases hbc with h | h
    · exact ⟨o, compareValues_eq_ok.1 h, .inl rfl⟩
    · exact ⟨.eq, compareValues_eq_ok.1 h, .inr rfl⟩
  obtain ⟨o', hbc', ho'⟩ := hnext
  rw [compareValues_eq_ok] at hab ⊢
  cases o with
  | lt =>
    have hne : o' ≠ .gt := by rcases ho' with rfl | rfl <;> nofun
    exact order?_trans hab hbc' nofun hne
  | eq => exact absurd rfl ho
  | gt =>
    -- transitivity is about orders that do not go down, so these are read from the other end
    have hne : o'.swap ≠ .gt := by rcases ho' with rfl | rfl <;> nofun
    have hca := order?_trans (order?_swap hbc') (order?_swap hab) hne nofun
    have hlt : o'.swap.then Ordering.gt.swap = .lt := by rcases ho' with rfl | rfl <;> rfl
    rw [hlt] at hca
    exact order?_swap hca

theorem Comparable.symm (h : a.Comparable b) : b.Comparable a := by
  obtain ⟨o, ho⟩ := h
  exact ⟨o.swap, compareValues_swap ho⟩

theorem ordered_isLT : a.ordered Ordering.isLT b = true ↔ a.compareValues b = .ok .lt := by
  rw [ordered_eq_true, compareValues_eq_ok]
  constructor
  · rintro ⟨o, ho, hlt⟩
    rwa [Ordering.isLT_iff_eq_lt.1 hlt] at ho
  · intro h
    exact ⟨.lt, h, rfl⟩

theorem ordered_isLE :
    a.ordered Ordering.isLE b = true ↔ a.compareValues b = .ok .lt ∨ a.compareValues b = .ok .eq := by
  rw [ordered_eq_true, compareValues_eq_ok, compareValues_eq_ok]
  constructor
  · rintro ⟨o, ho, hle⟩
    rcases Ordering.isLE_iff_eq_lt_or_eq_eq.1 hle with rfl | rfl
    · exact .inl ho
    · exact .inr ho
  · rintro (h | h)
    · exact ⟨.lt, h, rfl⟩
    · exact ⟨.eq, h, rfl⟩

theorem ok_bool_iff {b : Bool} : (.ok (.bool b) : Result Json) = .ok (.bool true) ↔ b = true := by
  rw [Except.ok.injEq, bool.injEq]

/-- Two values are in an accepted order iff comparing them the other way round gives the reverse of one,
where comparing may fail. -/
theorem ordered_iff_swap : a.ordered accept b = true ↔
    (fun o => bool (accept o.swap)) <$> b.compareValues a = (.ok (.bool true) : Result Json) := by
  rw [ordered_eq_true, Result.map_eq_ok]
  constructor
  · rintro ⟨o, ho, hacc⟩
    refine ⟨o.swap, compareValues_swap (compareValues_eq_ok.2 ho), ?_⟩
    rw [Ordering.swap_swap, hacc]
  · rintro ⟨o, ho, hacc⟩
    exact ⟨o.swap, compareValues_eq_ok.1 (compareValues_swap ho), bool.inj hacc⟩

/-! ### Leaders -/

variable {v best : Json} {seen : List Json}

theorem Leads.mem (h : v.Leads o seen) : v ∈ seen := by
  obtain ⟨before, after, rfl, -, -⟩ := h
  exact List.mem_append_right _ List.mem_cons_self

theorem Leads.order_of_mem {w : Json} (h : v.Leads o seen) (hw : w ∈ seen) :
    w = v ∨ v.compareValues w = .ok o ∨ v.compareValues w = .ok .eq := by
  obtain ⟨before, after, rfl, hbefore, hafter⟩ := h
  rcases List.mem_append.1 hw with hw | hw
  · exact .inr (.inl (hbefore w hw))
  · rcases List.mem_cons.1 hw with rfl | hw
    · exact .inl rfl
    · exact .inr (hafter w hw)

/-- What goes beyond the leader goes beyond all that it leads. -/
theorem Leads.of_beyond (ho : o ≠ .eq) (h : best.Leads o seen) (hv : v.compareValues best = .ok o) :
    v.Leads o (seen ++ [v]) := by
  obtain ⟨before, after, rfl, hbefore, hafter⟩ := h
  refine ⟨before ++ best :: after, [], rfl, fun w hw => ?_, nofun⟩
  rcases List.mem_append.1 hw with hw | hw
  · exact compareValues_trans ho hv (.inl (hbefore w hw))
  · rcases List.mem_cons.1 hw with rfl | hw
    · exact hv
    · exact compareValues_trans ho hv (hafter w hw)

/-- What does not go beyond the leader comes to those that it leads. -/
theorem Leads.of_not_beyond (ho : o ≠ .eq) (h : best.Leads o seen) {o' : Ordering}
    (hv : v.compareValues best = .ok o') (hne : o' ≠ o) : best.Leads o (seen ++ [v]) := by
  obtain ⟨before, after, rfl, hbefore, hafter⟩ := h
  have hbest : best.compareValues v = .ok o ∨ best.compareValues v = .ok .eq := by
    have hswap := compareValues_swap hv
    rcases Ordering.eq_swap_or_eq ho hne with rfl | rfl
    · rw [Ordering.swap_swap] at hswap
      exact .inl hswap
    · exact .inr hswap
  refine ⟨before, after ++ [v], by simp, hbefore, fun w hw => ?_⟩
  rcases List.mem_append.1 hw with hw | hw
  · exact hafter w hw
  · rw [List.mem_singleton.1 hw]
    exact hbest

end Json

namespace Operator

open Json

variable {a b v : Json} {operands : List Json} {accept : Ordering → Bool}

/-! ### Chains -/

theorem chained_iff_isChain : chained accept operands = true ↔
    2 ≤ operands.length ∧ operands.IsChain fun a b => a.ordered accept b = true := by
  induction operands with
  | nil => simp [chained]
  | cons a rest ih =>
    match rest, ih with
    | [], _ => simp [chained]
    | [b], _ => simp [chained]
    | b :: c :: rest, ih =>
      rw [chained, Bool.and_eq_true, ih, List.isChain_cons_cons]
      · simp
      · nofun

/-- A chain holds iff there are two operands and each is in order with every later one. -/
theorem chained_iff_pairwise (haccept : Ascending accept) : chained accept operands = true ↔
    2 ≤ operands.length ∧ operands.Pairwise fun a b => a.ordered accept b = true := by
  have : Trans (fun a b : Json => a.ordered accept b = true)
      (fun a b : Json => a.ordered accept b = true) fun a b => a.ordered accept b = true :=
    ⟨ordered_trans haccept⟩
  rw [chained_iff_isChain, List.isChain_iff_pairwise]

/-- A chain never fails: it is true iff there are at least two operands and each is below every later one,
or for `<=` not above it, and operands without an order make it false. Of two operands it holds just if
the comparison with the sides exchanged has a result and this is true. -/
theorem result_less (operands : List Json) (data : Json) :
    (∃ b, Operator.less.result operands data = .ok (.bool b) ∧
      (b = true ↔ 2 ≤ operands.length ∧
        operands.Pairwise fun v w => v.compareValues w = .ok .lt)) ∧
    (∃ b, Operator.lessOrEqual.result operands data = .ok (.bool b) ∧
      (b = true ↔ 2 ≤ operands.length ∧
        operands.Pairwise fun v w => v.compareValues w = .ok .lt ∨ v.compareValues w = .ok .eq)) ∧
    ∀ v w,
      (Operator.less.result [v, w] data = .ok (.bool true) ↔
        Operator.greater.result [w, v] data = .ok (.bool true)) ∧
      (Operator.lessOrEqual.result [v, w] data = .ok (.bool true) ↔
        Operator.greaterOrEqual.result [w, v] data = .ok (.bool true)) := by
  refine ⟨⟨chained Ordering.isLT operands, rfl, ?_⟩, ⟨chained Ordering.isLE operands, rfl, ?_⟩,
    fun v w => ⟨?_, ?_⟩⟩
  · rw [chained_iff_pairwise ascending_isLT]
    simp only [ordered_isLT]
  · rw [chained_iff_pairwise ascending_isLE]
    simp only [ordered_isLE]
  · have hgreater : Operator.greater.result [w, v] data =
        (fun o => .bool o.swap.isLT) <$> w.compareValues v := by
      simp only [Ordering.isLT_swap]
      rfl
    rw [hgreater, ← ordered_iff_swap, ← ok_bool_iff]
    rfl
  · have hgreater : Operator.greaterOrEqual.result [w, v] data =
        (fun o => .bool o.swap.isLE) <$> w.compareValues v := by
      simp only [Ordering.isLE_swap]
      rfl
    rw [hgreater, ← ordered_iff_swap, ← ok_bool_iff]
    rfl

/-! ### Extrema -/

variable {o : Ordering} {best first : Json} {seen others : List Json} {replaces : Ordering → Bool}

theorem leads_extremum (ho : o ≠ .eq) (hreplaces : ∀ o', replaces o' = true ↔ o' = o)
    (hbest : best.Leads o seen) (h : extremum replaces best others = .ok v) :
    v.Leads o (seen ++ others) := by
  -- the operands seen so far are part of the claim: who leads in the end leads them too
  induction others generalizing best seen with
  | nil =>
    cases h
    rwa [List.append_nil]
  | cons w rest ih =>
    rw [extremum_cons] at h
    obtain ⟨o', hw, h⟩ := Result.bind_eq_ok.1 h
    have hnext : (if replaces o' then w else best).Leads o (seen ++ [w]) := by
      by_cases hbeyond : replaces o' = true
      · rw [if_pos hbeyond]
        rw [hreplaces] at hbeyond
        exact hbest.of_beyond ho (hbeyond ▸ hw)
      · rw [if_neg hbeyond]
        rw [hreplaces] at hbeyond
        exact hbest.of_not_beyond ho hw hbeyond
    have hall := ih hnext h
    rwa [List.append_assoc] at hall

theorem exists_extremum (replaces : Ordering → Bool) (h : (first :: others).Pairwise Comparable) :
    ∃ v, extremum replaces first others = .ok v := by
  induction others generalizing first with
  | nil => exact ⟨first, rfl⟩
  | cons w rest ih =>
    obtain ⟨hfirst, hrest⟩ := List.pairwise_cons.1 h
    obtain ⟨o, ho⟩ := (hfirst w List.mem_cons_self).symm
    have hnext : ((if replaces o then w else first) :: rest).Pairwise Comparable := by
      split
      · exact hrest
      · exact h.sublist (.cons_cons first (List.sublist_cons_self w rest))
    rw [extremum_cons, ho]
    exact ih hnext

theorem result_min (first : Json) (others : List Json) (data : Json) :
    min.result (first :: others) data = extremum Ordering.isLT first others := by
  simp [result, arity, Arity.accepts, isIteration, value?]

theorem result_max (first : Json) (others : List Json) (data : Json) :
    max.result (first :: others) data = extremum Ordering.isGT first others := by
  simp [result, arity, Arity.accepts, isIteration, value?]

/-- `min` and `max` give one of their operands as it is, the first of those that no other goes beyond;
it has an order with all others. Where all operands have an order with each other, there is a
result. -/
theorem result_extremum (operands : List Json) (data : Json) :
    (∀ v, Operator.min.result operands data = .ok v → v.Leads .lt operands) ∧
    (∀ v, Operator.max.result operands data = .ok v → v.Leads .gt operands) ∧
    (operands ≠ [] → operands.Pairwise Comparable →
      (∃ v, Operator.min.result operands data = .ok v) ∧
        ∃ v, Operator.max.result operands data = .ok v) := by
  cases operands with
  | nil => exact ⟨nofun, nofun, fun h => absurd rfl h⟩
  | cons first others =>
    have hfirst : ∀ o, first.Leads o [first] := fun o => ⟨[], [], rfl, nofun, nofun⟩
    rw [result_min, result_max]
    refine ⟨fun v hv => ?_, fun v hv => ?_, fun _ h => ?_⟩
    · exact leads_extremum (by decide) (fun _ => Ordering.isLT_iff_eq_lt) (hfirst .lt) hv
    · exact leads_extremum (by decide) (fun _ => Ordering.isGT_iff_eq_gt) (hfirst .gt) hv
    · exact ⟨exists_extremum _ h, exists_extremum _ h⟩

/-- Two operands tie for the least, and the tails that are not compared have no order. -/
theorem result_extremum_ties :
    let a : Json := .arr [.ofInt 2, .null]
    let b : Json := .arr [.bool true, .str "x"]
    let c : Json := .arr [.ofInt 1, .str "x"]
    let operands := [a, b, c]
    operands.Pairwise Comparable ∧
    Operator.min.result operands .null = .ok b ∧ b.Leads .lt operands ∧
    Operator.max.result operands .null = .ok a ∧ a.Leads .gt operands ∧
    ∃ v, Operator.min.result operands .null = .ok v := by
  intro a b c operands
  have hab : a.compareValues b = .ok .gt := by decide +kernel
  have hac : a.compareValues c = .ok .gt := by decide +kernel
  have hbc : b.compareValues c = .ok .eq := by decide +kernel
  clear_value a b c
  have hpairs : operands.Pairwise Comparable :=
    .cons (by simp [Comparable, hab, hac]) (.cons (by simp [Comparable, hbc]) (.cons nofun .nil))
  have hmin : Operator.min.result operands .null = .ok b := by
    rw [result_min, extremum_cons, compareValues_swap hab]
    show extremum Ordering.isLT b [c] = .ok b
    rw [extremum_cons, compareValues_swap hbc]
    rfl
  have hmax : Operator.max.result operands .null = .ok a := by
    rw [result_max, extremum_cons, compareValues_swap hab]
    show extremum Ordering.isGT a [c] = .ok a
    rw [extremum_cons, compareValues_swap hac]
    rfl
  obtain ⟨hleast, hgreatest, hexists⟩ := result_extremum operands .null
  exact ⟨hpairs, hmin, hleast b hmin, hmax, hgreatest a hmax, (hexists nofun hpairs).1⟩

end Operator
end JsonRules
