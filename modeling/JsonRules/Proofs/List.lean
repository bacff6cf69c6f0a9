import Mathlib.Data.List.Forall2
import Std.Data.TreeSet.Lemmas

/-!
# Lists and orderings

What the proofs need of lists in general, of the lists that sets of texts give, and of orderings, and
what the library does not say. Nothing here knows of rules or of values.
-/

namespace List

variable {α β γ : Type*}

/-! ### Two lists element by element -/

namespace Forall₂

variable {R S : α → β → Prop} {xs : List α} {ys : List β}

/-- At every position either both lists have ended or two related elements stand there. -/
theorem getElem?_cases (h : Forall₂ R xs ys) (i : Nat) :
    xs[i]? = none ∧ ys[i]? = none ∨ ∃ x y, xs[i]? = some x ∧ ys[i]? = some y ∧ R x y := by
  induction h generalizing i with
  | nil => exact .inl ⟨rfl, rfl⟩
  | cons hxy _ ih =>
    cases i with
    | zero => exact .inr ⟨_, _, rfl, rfl, hxy⟩
    | succ i => exact ih i

theorem set {x : α} {y : β} (h : Forall₂ R xs ys) (hxy : R x y) (i : Nat) :
    Forall₂ R (xs.set i x) (ys.set i y) := by
  induction h generalizing i with
  | nil => exact .nil
  | cons hab h ih =>
    cases i with
    | zero => exact .cons hxy h
    | succ i => exact .cons hab (ih i)

theorem imp_of_mem (h : Forall₂ R xs ys) (himp : ∀ x ∈ xs, ∀ y ∈ ys, R x y → S x y) :
    Forall₂ S xs ys := by
  induction h with
  | nil => exact .nil
  | cons hxy _ ih =>
    refine .cons (himp _ mem_cons_self _ mem_cons_self hxy) (ih fun x hx y hy => ?_)
    exact himp x (mem_cons_of_mem _ hx) y (mem_cons_of_mem _ hy)

theorem exists_of_mem_right (h : Forall₂ R xs ys) : ∀ y ∈ ys, ∃ x ∈ xs, R x y := by
  induction h with
  | nil => simp
  | cons hxy _ ih =>
    intro y hy
    rcases mem_cons.1 hy with rfl | hy
    · exact ⟨_, mem_cons_self, hxy⟩
    · obtain ⟨x, hx, h⟩ := ih y hy
      exact ⟨x, mem_cons_of_mem _ hx, h⟩

theorem trans_of_mem {R : α → α → Prop} {xs ys zs : List α} (hxy : Forall₂ R xs ys)
    (hyz : Forall₂ R ys zs) (htrans : ∀ x ∈ xs, ∀ y z, R x y → R y z → R x z) : Forall₂ R xs zs := by
  induction hxy generalizing zs with
  | nil => exact hyz
  | cons h _ ih =>
    cases hyz with
    | cons h' hyz =>
      refine .cons (htrans _ mem_cons_self _ _ h h') (ih hyz fun x hx => ?_)
      exact htrans x (mem_cons_of_mem _ hx)

end Forall₂

/-! ### Positions and parts -/

/-- Some position of a list is the first one, or one of the rest. -/
theorem exists_getElem?_cons {P : Nat → α → Prop} {a : α} {l : List α} :
    (∃ i b, (a :: l)[i]? = some b ∧ P i b) ↔ P 0 a ∨ ∃ i b, l[i]? = some b ∧ P (i + 1) b := by
  constructor
  · rintro ⟨i, b, hb, h⟩
    cases i with
    | zero =>
      cases hb
      exact .inl h
    | succ i => exact .inr ⟨i, b, hb, h⟩
  · rintro (h | ⟨i, b, hb, h⟩)
    · exact ⟨0, a, rfl, h⟩
    · exact ⟨i + 1, b, hb, h⟩

theorem any_of_any_take {xs : List α} {p : α → Bool} {n : Nat} (h : (xs.take n).any p = true) :
    xs.any p = true := by
  obtain ⟨x, hx, hp⟩ := any_eq_true.1 h
  exact any_eq_true.2 ⟨x, mem_of_mem_take hx, hp⟩

theorem modify_map {φ : α → β} {g : α → α} {g' : β → β} (h : ∀ a, g' (φ a) = φ (g a)) (l : List α)
    (i : Nat) : (l.map φ).modify i g' = (l.modify i g).map φ := by
  apply ext_getElem?
  intro j
  rw [getElem?_modify, getElem?_map, getElem?_map, getElem?_modify]
  cases l[j]? with
  | none => rfl
  | some a =>
    by_cases hij : i = j
    · simp [hij, h]
    · simp [hij]

theorem mapM_map_eq_some {f : α → β} {g : β → Option γ} {h : α → γ} {l : List α}
    (hg : ∀ a ∈ l, g (f a) = some (h a)) : (l.map f).mapM g = some (l.map h) := by
  induction l with
  | nil => rfl
  | cons a rest ih =>
    obtain ⟨ha, hrest⟩ := forall_mem_cons.1 hg
    rw [map_cons, mapM_cons, ha, ih hrest]
    rfl

theorem lookup_cons_eq_ite (key name : String) (v : α) (rest : List (String × α)) :
    ((name, v) :: rest).lookup key = if name = key then some v else rest.lookup key := by
  rw [lookup_cons]
  by_cases h : name = key
  · rw [if_pos h, beq_iff_eq.2 h.symm]
  · rw [if_neg h, beq_eq_false_iff_ne.2 (Ne.symm h)]

end List

/-! ### Sets of texts -/

namespace Std.TreeSet

/-- The elements of a set of texts are listed in ascending order, each once. -/
theorem pairwise_lt_toList (t : TreeSet String) : t.toList.Pairwise (· < ·) :=
  t.ordered_toList.imp compareOfLessAndEq_eq_lt.1

theorem toList_eq_of_mem_iff {s t : TreeSet String} (h : ∀ name, name ∈ s ↔ name ∈ t) :
    s.toList = t.toList :=
  (Equiv.of_forall_mem_iff h).toList_eq

end Std.TreeSet

/-! ### Orderings -/

namespace Ordering

variable {o o' : Ordering}

theorem then_of_transCmp {α : Type*} {cmp : α → α → Ordering} [Std.TransCmp cmp] {a b c : α}
    (hab : cmp a b ≠ .gt) (hbc : cmp b c ≠ .gt) : cmp a c = (cmp a b).then (cmp b c) := by
  cases h : cmp a b with
  | lt => exact Std.TransCmp.lt_of_lt_of_isLE h (isLE_iff_ne_gt.2 hbc)
  | eq => exact Std.TransCmp.congr_left h
  | gt => exact absurd h hab

theorem eq_lt_of_ne (heq : o ≠ .eq) (hgt : o ≠ .gt) : o = .lt := by
  cases o with
  | lt => rfl
  | eq => exact absurd rfl heq
  | gt => exact absurd rfl hgt

theorem then_eq_ite (ho : o ≠ .gt) (ho' : o' ≠ .gt) :
    o.then o' = if o = .lt ∨ o' = .lt then .lt else .eq := by
  cases o with
  | lt => rfl
  | gt => exact absurd rfl ho
  | eq =>
    cases o' with
    | lt => rfl
    | eq => rfl
    | gt => exact absurd rfl ho'

theorem eq_swap_or_eq (ho : o ≠ .eq) (hne : o' ≠ o) : o' = o.swap ∨ o' = .eq := by
  cases o <;> cases o' <;> simp at ho hne ⊢

end Ordering
