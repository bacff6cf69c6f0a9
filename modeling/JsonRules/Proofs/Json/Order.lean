import JsonRules.Proofs.Json.Parts
import JsonRules.Proofs.List
import JsonRules.Rule.Result

/-!
# The order of values

Values have an order if both are strings, both count as numbers, or both are arrays whose first
difference has one (`order?_eq_ok`). Where there is an order it reverses with its sides
(`order?_swap`), it is transitive, comparability included (`order?_trans`), and it is `eq` on equal
values only (`order?_eq_iff`). Each law is shown of scalars first and then of arrays item by item.
-/

namespace JsonRules

/-- Doubles are ordered as their units are. -/
instance : Std.TransCmp Double.order where
  eq_swap {x y} := Std.OrientedOrd.eq_swap (a := x.units) (b := y.units)
  isLE_trans {x y z} := Std.TransOrd.isLE_trans (a := x.units) (b := y.units) (c := z.units)

theorem Double.order_eq_iff {x y : Double} : x.order y = .eq ↔ x.same y = true := by
  rw [order, same, Std.compare_eq_iff_eq, beq_iff_eq]

namespace Json

variable {a b c : Json} {xs ys zs : List Json} {o o' : Ordering}

/-! ### Scalars -/

/-- Scalars have an order if they are two strings or count as two numbers. -/
theorem orderScalars_eq_ok : orderScalars a b = .ok o ↔
    (∃ s t, a = .str s ∧ b = .str t ∧ compare s t = o) ∨
      ∃ x y, a.numeric? = some x ∧ b.numeric? = some y ∧ x.order y = o := by
  unfold orderScalars
  split
  · simp [numeric?]
  · rename_i hstr
    constructor
    · intro h
      split at h
      · rename_i x y hx hy
        exact .inr ⟨x, y, hx, hy, Except.ok.inj h⟩
      · cases h
    · rintro (⟨s, t, rfl, rfl, -⟩ | ⟨x, y, hx, hy, rfl⟩)
      · exact absurd rfl (hstr s t rfl)
      · rw [hx, hy]

theorem orderScalars_swap (h : orderScalars a b = .ok o) : orderScalars b a = .ok o.swap := by
  rcases orderScalars_eq_ok.1 h with ⟨s, t, rfl, rfl, rfl⟩ | ⟨x, y, hx, hy, rfl⟩
  · exact orderScalars_eq_ok.2 (.inl ⟨t, s, rfl, rfl, Std.OrientedCmp.eq_swap⟩)
  · exact orderScalars_eq_ok.2 (.inr ⟨y, x, hy, hx, Std.OrientedCmp.eq_swap⟩)

theorem orderScalars_trans (hab : orderScalars a b = .ok o) (hbc : orderScalars b c = .ok o')
    (ho : o ≠ .gt) (ho' : o' ≠ .gt) : orderScalars a c = .ok (o.then o') := by
  rcases orderScalars_eq_ok.1 hab with ⟨s, t, rfl, rfl, rfl⟩ | ⟨x, y, hx, hy, rfl⟩
  · rcases orderScalars_eq_ok.1 hbc with ⟨t', u, ht, rfl, rfl⟩ | ⟨y, z, hy, -⟩
    · cases ht
      exact orderScalars_eq_ok.2 (.inl ⟨s, u, rfl, rfl, Ordering.then_of_transCmp ho ho'⟩)
    · cases hy
  · rcases orderScalars_eq_ok.1 hbc with ⟨t, u, rfl, -⟩ | ⟨y', z, hy', hz, rfl⟩
    · cases hy
    · cases hy.symm.trans hy'
      exact orderScalars_eq_ok.2 (.inr ⟨x, z, hx, hz, Ordering.then_of_transCmp ho ho'⟩)

theorem equalScalars_str {s t : String} : equalScalars (.str s) (.str t) = (s == t) := rfl

theorem equalScalars_of_numeric? {x y : Double} (hx : a.numeric? = some x)
    (hy : b.numeric? = some y) : equalScalars a b = x.same y := by
  rw [equalScalars, hx, hy]

theorem orderScalars_eq_iff (h : orderScalars a b = .ok o) : o = .eq ↔ equalScalars a b = true := by
  rcases orderScalars_eq_ok.1 h with ⟨s, t, rfl, rfl, rfl⟩ | ⟨x, y, hx, hy, rfl⟩
  · rw [equalScalars_str, Std.compare_eq_iff_eq, beq_iff_eq]
  · rw [equalScalars_of_numeric? hx hy, Double.order_eq_iff]

theorem isScalar_of_orderScalars (h : orderScalars a b = .ok o) : a.IsScalar := by
  rcases orderScalars_eq_ok.1 h with ⟨s, t, rfl, -⟩ | ⟨x, y, hx, -⟩
  · exact ⟨nofun, nofun⟩
  · exact isScalar_of_numeric? hx

/-! ### Arrays -/

theorem orderItems?_cons : orderItems? (a :: xs) (b :: ys) = .ok o ↔
    a.order? b = .ok .eq ∧ orderItems? xs ys = .ok o ∨ a.order? b = .ok o ∧ o ≠ .eq := by
  rw [orderItems?]
  rcases a.order? b with e | _ | _ | _ <;> simp <;> rintro rfl <;> simp

theorem orderItems?_swap
    (ih : ∀ a ∈ xs, ∀ b o, a.order? b = .ok o → b.order? a = .ok o.swap)
    (h : orderItems? xs ys = .ok o) : orderItems? ys xs = .ok o.swap := by
  induction xs generalizing ys with
  | nil =>
    cases ys <;> cases h <;> rfl
  | cons a xs ihxs =>
    cases ys with
    | nil =>
      cases h
      rfl
    | cons b ys =>
      have ha := ih a List.mem_cons_self b
      rcases orderItems?_cons.1 h with ⟨hab, hrest⟩ | ⟨hab, ho⟩
      · have hrest := ihxs (fun v hv => ih v (List.mem_cons_of_mem a hv)) hrest
        exact orderItems?_cons.2 (.inl ⟨ha _ hab, hrest⟩)
      · refine orderItems?_cons.2 (.inr ⟨ha _ hab, ?_⟩)
        rwa [Ne, Ordering.swap_eq_eq]

theorem orderItems?_trans
    (ih : ∀ a ∈ xs, ∀ b c o o', a.order? b = .ok o → b.order? c = .ok o' →
      o ≠ .gt → o' ≠ .gt → a.order? c = .ok (o.then o'))
    (hxy : orderItems? xs ys = .ok o) (hyz : orderItems? ys zs = .ok o') (ho : o ≠ .gt)
    (ho' : o' ≠ .gt) : orderItems? xs zs = .ok (o.then o') := by
  induction xs generalizing ys zs with
  | nil =>
    cases ys with
    | nil =>
      cases hxy
      exact hyz
    | cons b ys =>
      cases hxy
      cases zs with
      | nil =>
        cases hyz
        exact absurd rfl ho'
      | cons c zs => rfl
  | cons a xs ihxs =>
    cases ys with
    | nil =>
      cases hxy
      exact absurd rfl ho
    | cons b ys =>
      cases zs with
      | nil =>
        cases hyz
        exact absurd rfl ho'
      | cons c zs =>
        have ha := ih a List.mem_cons_self b c
        rcases orderItems?_cons.1 hxy with ⟨hab, hxy⟩ | ⟨hab, hne⟩
        · rcases orderItems?_cons.1 hyz with ⟨hbc, hyz⟩ | ⟨hbc, hne'⟩
          · have hrest := ihxs (fun v hv => ih v (List.mem_cons_of_mem a hv)) hxy hyz
            exact orderItems?_cons.2 (.inl ⟨ha _ _ hab hbc nofun nofun, hrest⟩)
          · -- the second pair decides for both, whatever the rest of `xs` and `ys` gave
            obtain rfl := Ordering.eq_lt_of_ne hne' ho'
            rw [Ordering.then_eq_ite ho ho', if_pos (.inr rfl)]
            exact orderItems?_cons.2 (.inr ⟨ha _ _ hab hbc nofun nofun, nofun⟩)
        · obtain rfl := Ordering.eq_lt_of_ne hne ho
          show orderItems? (a :: xs) (c :: zs) = .ok .lt
          rcases orderItems?_cons.1 hyz with ⟨hbc, -⟩ | ⟨hbc, -⟩
          · exact orderItems?_cons.2 (.inr ⟨ha _ _ hab hbc nofun nofun, nofun⟩)
          · exact orderItems?_cons.2 (.inr ⟨ha _ _ hab hbc nofun ho', nofun⟩)

theorem orderItems?_eq_iff
    (ih : ∀ a ∈ xs, ∀ b o, a.order? b = .ok o → (o = .eq ↔ a.equal b = true))
    (h : orderItems? xs ys = .ok o) : o = .eq ↔ equalItems xs ys = true := by
  induction xs generalizing ys with
  | nil => cases ys <;> cases h <;> simp [equalItems]
  | cons a xs ihxs =>
    cases ys with
    | nil =>
      cases h
      simp [equalItems]
    | cons b ys =>
      have ha := ih a List.mem_cons_self b
      rw [equalItems, Bool.and_eq_true]
      rcases orderItems?_cons.1 h with ⟨hab, hrest⟩ | ⟨hab, ho⟩
      · have hequal : a.equal b = true := (ha _ hab).1 rfl
        have hrest := ihxs (fun v hv => ih v (List.mem_cons_of_mem a hv)) hrest
        rw [hrest]
        exact (and_iff_right hequal).symm
      · have hequal : ¬ a.equal b = true := fun he => ho ((ha _ hab).2 he)
        exact ⟨fun he => absurd he ho, fun he => absurd he.1 hequal⟩

/-! ### All values -/

theorem order?_of_ne_array_left (h : a.kind ≠ .array) : a.order? b = orderScalars a b := by
  cases a with
  | arr items => exact absurd rfl h
  | _ => rfl

theorem order?_of_ne_array_right (h : b.kind ≠ .array) : a.order? b = orderScalars a b := by
  cases b with
  | arr items => exact absurd rfl h
  | _ => cases a <;> rfl

theorem order?_arr : order? (.arr xs) (.arr ys) = orderItems? xs ys := rfl

/-- Two arrays have the order of their items, all other values that of scalars if any. -/
theorem order?_eq_ok : a.order? b = .ok o ↔
    (∃ xs ys, a = .arr xs ∧ b = .arr ys ∧ orderItems? xs ys = .ok o) ∨ orderScalars a b = .ok o := by
  by_cases ha : a.kind = .array
  · by_cases hb : b.kind = .array
    · obtain ⟨xs, rfl⟩ := eq_arr_of_kind ha
      obtain ⟨ys, rfl⟩ := eq_arr_of_kind hb
      simp [order?_arr, orderScalars, numeric?]
    · rw [order?_of_ne_array_right hb]
      refine ⟨.inr, ?_⟩
      rintro (⟨xs, ys, -, rfl, -⟩ | h)
      · exact absurd rfl hb
      · exact h
  · rw [order?_of_ne_array_left ha]
    refine ⟨.inr, ?_⟩
    rintro (⟨xs, ys, rfl, -⟩ | h)
    · exact absurd rfl ha
    · exact h

/-- Where two values have an order they have the reverse one the other way round. -/
theorem order?_swap (h : a.order? b = .ok o) : b.order? a = .ok o.swap := by
  induction a using Json.items_induction generalizing b o with
  | h a ih =>
    rcases order?_eq_ok.1 h with ⟨xs, ys, rfl, rfl, h⟩ | h
    · exact orderItems?_swap (fun v hv b o => ih xs rfl v hv) h
    · exact order?_eq_ok.2 (.inr (orderScalars_swap h))

/-- Two orders that do not go down make one, and comparability comes with it. -/
theorem order?_trans (hab : a.order? b = .ok o) (hbc : b.order? c = .ok o') (ho : o ≠ .gt)
    (ho' : o' ≠ .gt) : a.order? c = .ok (o.then o') := by
  induction a using Json.items_induction generalizing b c o o' with
  | h a ih =>
    rcases order?_eq_ok.1 hab with ⟨xs, ys, rfl, rfl, hxy⟩ | hab
    · rcases order?_eq_ok.1 hbc with ⟨ys, zs, hys, rfl, hyz⟩ | hbc
      · cases hys
        exact orderItems?_trans (fun v hv b c o o' => ih xs rfl v hv) hxy hyz ho ho'
      · cases hbc
    · rcases order?_eq_ok.1 hbc with ⟨ys, zs, rfl, rfl, hyz⟩ | hbc
      · rcases orderScalars_eq_ok.1 hab with ⟨s, t, -, ht, -⟩ | ⟨x, y, -, hy, -⟩
        · cases ht
        · cases hy
      · exact order?_eq_ok.2 (.inr (orderScalars_trans hab hbc ho ho'))

theorem order?_eq_iff (h : a.order? b = .ok o) : o = .eq ↔ a.equal b = true := by
  induction a using Json.items_induction generalizing b o with
  | h a ih =>
    rcases order?_eq_ok.1 h with ⟨xs, ys, rfl, rfl, h⟩ | h
    · exact orderItems?_eq_iff (fun v hv b o => ih xs rfl v hv) h
    · rw [equal_of_isScalar (isScalar_of_orderScalars h)]
      exact orderScalars_eq_iff h

theorem compareValues_eq_ok : a.compareValues b = .ok o ↔ a.order? b = .ok o := by
  unfold compareValues
  cases a.order? b <;> simp

/-- The order of values is a preorder that agrees with their equality: it reverses with its sides, it
is transitive, where comparability carries over, and it is `eq` on equal values only. -/
theorem compareValues_preorder (a b c : Json) :
    (∀ o, b.compareValues a = .ok o.swap ↔ a.compareValues b = .ok o) ∧
    (∀ o o', a.compareValues b = .ok o → b.compareValues c = .ok o' → o ≠ .gt → o' ≠ .gt →
      a.compareValues c = .ok (if o = .lt ∨ o' = .lt then .lt else .eq)) ∧
    ∀ o, a.compareValues b = .ok o → (o = .eq ↔ a.equal b = true) := by
  simp only [compareValues_eq_ok]
  refine ⟨fun o => ⟨fun h => ?_, order?_swap⟩, fun o o' hab hbc ho ho' => ?_, fun o => order?_eq_iff⟩
  · have hswap := order?_swap h
    rwa [Ordering.swap_swap] at hswap
  · rw [order?_trans hab hbc ho ho', Ordering.then_eq_ite ho ho']

/-- Numbers and booleans mixed, and tails that have no order behind the first difference. -/
theorem compareValues_preorder_mixed :
    let a : Json := .arr [.bool true, .arr [.ofInt 1], .null]
    let b : Json := .arr [.ofInt 1, .arr [.bool true, .str "x"], .obj []]
    let c : Json := .arr [.bool true, .arr [.ofInt 2]]
    a.compareValues b = .ok .lt ∧ b.compareValues c = .ok .lt ∧ a.compareValues c = .ok .lt := by
  intro a b c
  have hab : a.compareValues b = .ok .lt := by decide +kernel
  have hbc : b.compareValues c = .ok .lt := by decide +kernel
  exact ⟨hab, hbc, (compareValues_preorder a b c).2.1 _ _ hab hbc nofun nofun⟩

end Json
end JsonRules
