import JsonRules.Run.Program

/-!
# Runs of loops

A loop with `mapM` computes on every item, one after the other, and the other loops are told by it. One
that keeps the items with a property does the same and then keeps some (`filterM_eq`). A search does what
the first loop does on the shortest part of the items, from the left, that settles it (`run_anyM`).
-/

namespace JsonRules
namespace Program

variable {σ α β : Type} {host : Host σ} {step : α → Program β} {s : σ}

/-- What a program records comes before what it goes on to record. -/
theorem journal_prefix_bind (host : Host σ) (p : Program α) (f : α → Program β) (s : σ) :
    (p.run host s).journal <+: ((p.bind f).run host s).journal := by
  cases h : (p.run host s).result with
  | ok a =>
    rw [run_bind_of_ok h]
    exact List.prefix_append _ _
  | error e =>
    exact ⟨[], by rw [run_bind_of_error h, List.append_nil]⟩

/-! ### Computing on every item -/

section
variable {v : α} {rest : List α}

theorem run_mapM_cons_of_ok {y : β} (h : ((step v).run host s).result = .ok y) :
    ((v :: rest).mapM step).run host s =
      ⟨(y :: ·) <$> ((rest.mapM step).run host ((step v).run host s).state).result,
        ((rest.mapM step).run host ((step v).run host s).state).state,
        ((step v).run host s).journal ++
          ((rest.mapM step).run host ((step v).run host s).state).journal⟩ := by
  rw [List.mapM_cons, bind_eq, run_bind_of_ok h]
  simp only [bind_eq, pure_eq, run_map]

theorem run_mapM_cons_of_error {e : RuleError} (h : ((step v).run host s).result = .error e) :
    ((v :: rest).mapM step).run host s =
      ⟨.error e, ((step v).run host s).state, ((step v).run host s).journal⟩ := by
  rw [List.mapM_cons, bind_eq, run_bind_of_error h]

theorem run_mapM_cons_eq_ok {ys : List β}
    (h : (((v :: rest).mapM step).run host s).result = .ok ys) :
    ∃ y zs, ys = y :: zs ∧ ((step v).run host s).result = .ok y ∧
      ((rest.mapM step).run host ((step v).run host s).state).result = .ok zs := by
  cases hv : ((step v).run host s).result with
  | error e =>
    rw [run_mapM_cons_of_error hv] at h
    cases h
  | ok y =>
    rw [run_mapM_cons_of_ok hv] at h
    obtain ⟨zs, hzs, rfl⟩ := Result.map_eq_ok.1 h
    exact ⟨y, zs, rfl, rfl, hzs⟩

end

variable {items : List α}

theorem length_of_run_mapM {ys : List β} (h : ((items.mapM step).run host s).result = .ok ys) :
    ys.length = items.length := by
  induction items generalizing s ys with
  | nil =>
    cases h
    rfl
  | cons v rest ih =>
    obtain ⟨y, zs, rfl, -, hzs⟩ := run_mapM_cons_eq_ok h
    rw [List.length_cons, List.length_cons, ih hzs]

theorem run_mapM_take {ys : List β} (h : ((items.mapM step).run host s).result = .ok ys) (n : Nat) :
    (((items.take n).mapM step).run host s).result = .ok (ys.take n) := by
  induction items generalizing s ys n with
  | nil =>
    cases h
    simp [run]
  | cons v rest ih =>
    obtain ⟨y, zs, rfl, hv, hzs⟩ := run_mapM_cons_eq_ok h
    cases n with
    | zero => rfl
    | succ n =>
      rw [List.take_succ_cons, run_mapM_cons_of_ok hv, ih hzs n]
      rfl

/-- The value on an item is that in the state which the items before it lead to. -/
theorem run_of_run_mapM {ys : List β} (h : ((items.mapM step).run host s).result = .ok ys) {i : Nat}
    {v : α} {y : β} (hv : items[i]? = some v) (hy : ys[i]? = some y) :
    ((step v).run host (((items.take i).mapM step).run host s).state).result = .ok y := by
  induction items generalizing s ys i with
  | nil => cases hv
  | cons w rest ih =>
    obtain ⟨z, zs, rfl, hw, hzs⟩ := run_mapM_cons_eq_ok h
    cases i with
    | zero =>
      cases hv
      cases hy
      exact hw
    | succ i =>
      rw [List.take_succ_cons, run_mapM_cons_of_ok hw]
      exact ih hzs hv hy

/-- A loop fails at an item: on the items before it there are values, and on it there is none. -/
theorem exists_of_run_mapM_error {e : RuleError}
    (h : ((items.mapM step).run host s).result = .error e) :
    ∃ k v ys, items[k]? = some v ∧ (((items.take k).mapM step).run host s).result = .ok ys ∧
      ((step v).run host (((items.take k).mapM step).run host s).state).result = .error e ∧
      (((items.take (k + 1)).mapM step).run host s).result = .error e := by
  induction items generalizing s with
  | nil => cases h
  | cons v rest ih =>
    cases hv : ((step v).run host s).result with
    | error e' =>
      rw [run_mapM_cons_of_error hv] at h
      cases h
      refine ⟨0, v, [], rfl, rfl, hv, ?_⟩
      rw [List.take_succ_cons, run_mapM_cons_of_error hv]
    | ok y =>
      rw [run_mapM_cons_of_ok hv] at h
      obtain ⟨k, w, ys, hw, hys, hfail, hsucc⟩ := ih (Result.map_eq_error.1 h)
      refine ⟨k + 1, w, y :: ys, hw, ?_, ?_, ?_⟩
      · rw [List.take_succ_cons, run_mapM_cons_of_ok hv, hys]
        rfl
      · rw [List.take_succ_cons, run_mapM_cons_of_ok hv]
        exact hfail
      · rw [List.take_succ_cons, run_mapM_cons_of_ok hv, hsucc]
        rfl

theorem mapM_append (step : α → Program β) (xs ys : List α) :
    (xs ++ ys).mapM step =
      (xs.mapM step).bind fun as => (ys.mapM step).bind fun bs => .done (as ++ bs) :=
  List.mapM_append

theorem journal_run_mapM_take (host : Host σ) (step : α → Program β) (items : List α) (n : Nat)
    (s : σ) :
    (((items.take n).mapM step).run host s).journal <+: ((items.mapM step).run host s).journal := by
  have hsplit := mapM_append step (items.take n) (items.drop n)
  rw [List.take_append_drop] at hsplit
  rw [hsplit]
  exact journal_prefix_bind host _ _ s

/-- What goes on with the values need only be right about as many as there are items. -/
theorem mapM_bind_congr {γ : Type} {f g : List β → Program γ}
    (h : ∀ ys, ys.length = items.length → f ys = g ys) :
    (items.mapM step).bind f = (items.mapM step).bind g := by
  induction items generalizing f g with
  | nil => exact h [] rfl
  | cons v rest ih =>
    rw [List.mapM_cons]
    simp only [bind_eq, pure_eq, bind_assoc, bind]
    refine congrArg _ (funext fun y => ?_)
    exact ih fun ys hlength => h (y :: ys) (congrArg Nat.succ hlength)

/-! ### Keeping items -/

theorem filterAuxM_eq (test : β → Bool) (items kept : List α) :
    (items.filterAuxM (fun v => test <$> step v) kept) =
      (items.mapM step).bind fun ys =>
        .done ((((items.zip ys).filter (test ·.2)).map Prod.fst).reverse ++ kept) := by
  induction items generalizing kept with
  | nil => rfl
  | cons v rest ih =>
    rw [List.mapM_cons, List.filterAuxM]
    simp only [bind_eq, pure_eq, ih]
    rw [map_eq, bind_assoc, bind_assoc]
    refine congrArg _ (funext fun y => ?_)
    simp only [bind, bind_assoc]
    refine congrArg _ (funext fun ys => ?_)
    cases h : test y <;> simp [h]

theorem filterM_eq (test : β → Bool) (items : List α) :
    (items.filterM fun v => test <$> step v) =
      (items.mapM step).bind fun ys => .done (((items.zip ys).filter (test ·.2)).map Prod.fst) := by
  rw [List.filterM, filterAuxM_eq]
  simp [bind_assoc, bind]

/-! ### Searching -/

theorem anyM_append (test : α → Program Bool) (xs ys : List α) :
    (xs ++ ys).anyM test =
      (xs.anyM test).bind fun found => if found then .done true else ys.anyM test := by
  induction xs with
  | nil => rfl
  | cons v rest ih =>
    rw [List.cons_append, List.anyM_cons, List.anyM_cons]
    simp only [bind_eq, bind_assoc]
    refine congrArg _ (funext fun found => ?_)
    cases found with
    | false => exact ih
    | true => rfl

/-- A loop that looks for a value which passes a test need not go further than to the first `n` items:
before, there are values and none passes. There it has found one or fails, unless it is at the end. -/
structure Settles (host : Host σ) (step : α → Program β) (test : β → Bool) (items : List α) (s : σ)
    (n : Nat) : Prop where
  le : n ≤ items.length
  before : ∀ m < n, ∃ ys, (((items.take m).mapM step).run host s).result = .ok ys ∧
    ys.any test = false
  found : n < items.length → ∀ ys, (((items.take n).mapM step).run host s).result = .ok ys →
    ys.any test = true

section
variable {test : β → Bool} {v : α} {rest : List α}

theorem settles_one (h : ∀ y, ((step v).run host s).result = .ok y → test y = true) :
    Settles host step test (v :: rest) s 1 := by
  refine ⟨by simp, fun m hm => ?_, fun _ ys hys => ?_⟩
  · obtain rfl : m = 0 := by omega
    exact ⟨[], rfl, rfl⟩
  · obtain ⟨y, zs, rfl, hv, -⟩ := run_mapM_cons_eq_ok hys
    rw [List.any_cons, h y hv, Bool.true_or]

/-- A search that its first item does not settle goes on with the others. -/
theorem Settles.cons {y : β} {n : Nat} (hv : ((step v).run host s).result = .ok y)
    (hy : test y = false) (h : Settles host step test rest ((step v).run host s).state n) :
    Settles host step test (v :: rest) s (n + 1) := by
  refine ⟨Nat.succ_le_succ h.le, fun m hm => ?_, fun hn ys hys => ?_⟩
  · cases m with
    | zero => exact ⟨[], rfl, rfl⟩
    | succ m =>
      obtain ⟨ys, hys, hnone⟩ := h.before m (Nat.lt_of_succ_lt_succ hm)
      refine ⟨y :: ys, ?_, ?_⟩
      · rw [List.take_succ_cons, run_mapM_cons_of_ok hv, hys]
        rfl
      · rw [List.any_cons, hy, hnone, Bool.false_or]
  · rw [List.take_succ_cons] at hys
    obtain ⟨z, zs, rfl, -, hzs⟩ := run_mapM_cons_eq_ok hys
    rw [List.any_cons, h.found (Nat.lt_of_succ_lt_succ hn) zs hzs, Bool.or_true]

end

/-- A search does what computing on every item does, on as many items as settle it. -/
theorem run_anyM (host : Host σ) (step : α → Program β) (test : β → Bool) (items : List α) (s : σ) :
    ∃ n, Settles host step test items s n ∧
      (items.anyM fun v => test <$> step v).run host s =
        let t := ((items.take n).mapM step).run host s
        { t with result := (List.any · test) <$> t.result } := by
  induction items generalizing s with
  | nil => exact ⟨0, ⟨Nat.le_refl 0, nofun, nofun⟩, rfl⟩
  | cons v rest ih =>
    have hcons : ((v :: rest).anyM fun v => test <$> step v) = (step v).bind fun y =>
        if test y then .done true else rest.anyM fun v => test <$> step v := by
      rw [List.anyM_cons]
      simp only [bind_eq, map_eq, pure_eq, bind_assoc, bind]
    rw [hcons]
    -- the first item fails, settles the search, or leaves it to the others
    cases hv : ((step v).run host s).result with
    | error e =>
      refine ⟨1, settles_one (by simp [hv]), ?_⟩
      rw [run_bind_of_error hv, List.take_succ_cons, run_mapM_cons_of_error hv]
      rfl
    | ok y =>
      rw [run_bind_of_ok hv]
      cases hy : test y with
      | true =>
        refine ⟨1, settles_one (by simp [hv, hy]), ?_⟩
        have hone : [y].any test = true := by rw [List.any_cons, hy, Bool.true_or]
        rw [List.take_succ_cons, run_mapM_cons_of_ok hv]
        simp only [run, if_true, List.take_zero, List.mapM_nil, pure_eq]
        exact congrArg (fun b : Bool => (⟨.ok b, _, _⟩ : Trail σ (Result Bool))) hone.symm
      | false =>
        obtain ⟨n, hn, hrest⟩ := ih ((step v).run host s).state
        refine ⟨n + 1, hn.cons hv hy, ?_⟩
        rw [List.take_succ_cons, run_mapM_cons_of_ok hv]
        simp only [hrest, Bool.false_eq_true, if_false]
        cases (((rest.take n).mapM step).run host ((step v).run host s).state).result with
        | error e => rfl
        | ok ys => simp [hy]

end Program
end JsonRules
