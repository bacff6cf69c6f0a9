import JsonRules.Proofs.Double.Nearest
import JsonRules.Proofs.Json.Equality
import JsonRules.Proofs.Json.Order

/-!
# Equal operands

Equality by number relates `1`, `1.0` and `true` at any depth. The operators that ask a question about
their operands cannot tell equal ones apart (`result_congr`): truth, equality, order and membership
depend on the number that a value counts as, on its text and on its parts, and these are equal in turn.
-/

namespace JsonRules

namespace Json

/-- Two values that are equal by number, none of which holds an object with a name twice. -/
structure Equated (v w : Json) : Prop where
  left : v.WellFormed
  right : w.WellFormed
  equal : v.equal w = true

variable {v v' w w' : Json} {xs xs' ys ys' : List Json} {x x' : Double} {o : Ordering}

theorem Equated.symm (h : Equated v w) : Equated w v :=
  ⟨h.right, h.left, equal_symm h.left h.right h.equal⟩

theorem equated_items (h : Equated (.arr xs) (.arr ys)) : List.Forall₂ Equated xs ys := by
  have hx := wellFormed_arr.1 h.left
  have hy := wellFormed_arr.1 h.right
  exact ((isEquality_equal.arr _ _).1 h.equal).imp_of_mem fun v hv w hw he =>
    ⟨hx v hv, hy w hw, he⟩

/-! ### What equal values share -/

theorem numeric?_congr (h : v.equal w = true) (hx : v.numeric? = some x) :
    ∃ y, w.numeric? = some y ∧ x.same y = true := by
  rcases (equal_scalar (isScalar_of_numeric? hx)).1 h with ⟨x', y, hx', hy, hxy⟩ | ⟨rfl, -⟩ | ⟨s, rfl, -⟩
  · cases hx.symm.trans hx'
    exact ⟨y, hy, hxy⟩
  · cases hx
  · cases hx

theorem eq_str_of_equal {s : String} (h : (str s).equal w = true) : w = .str s := by
  have hs : (str s).IsScalar := ⟨nofun, nofun⟩
  rcases (equal_scalar hs).1 h with ⟨x, y, hx, -⟩ | ⟨hs, -⟩ | ⟨t, hs, rfl⟩
  · cases hx
  · cases hs
  · cases hs
    rfl

theorem eq_null_of_equal (h : null.equal w = true) : w = .null := by
  have hs : null.IsScalar := ⟨nofun, nofun⟩
  rcases (equal_scalar hs).1 h with ⟨x, y, hx, -⟩ | ⟨-, rfl⟩ | ⟨t, hs, -⟩
  · cases hx
  · rfl
  · cases hs

/-! ### Truth -/

theorem truthy_of_numeric? (h : v.numeric? = some x) : v.truthy = !x.isZero := by
  cases v with
  | num n =>
    cases h
    rfl
  | bool b =>
    cases h
    cases b <;> decide +kernel
  | _ => cases h

theorem truthy_congr (h : v.equal w = true) : v.truthy = w.truthy := by
  cases v with
  | null => rw [eq_null_of_equal h]
  | str s => rw [eq_str_of_equal h]
  | arr xs =>
    obtain ⟨ys, rfl, hall⟩ := isEquality_equal.arr_left h
    cases hall <;> rfl
  | obj xs =>
    obtain ⟨ys, rfl, hlen, -⟩ := isEquality_equal.obj_left h
    match xs, ys, hlen with
    | [], [], _ => rfl
    | _ :: _, _ :: _, _ => rfl
  | num | bool =>
    obtain ⟨y, hy, hxy⟩ := numeric?_congr h rfl
    rw [truthy_of_numeric? rfl, truthy_of_numeric? hy, Bool.eq_iff_iff, Bool.not_eq_true',
      Bool.not_eq_true', ← Bool.not_eq_true, ← Bool.not_eq_true, Double.isZero_iff, Double.isZero_iff,
      Double.same_iff.1 hxy]

/-! ### Equality -/

theorem equal_congr (hv : Equated v v') (hw : Equated w w') : v.equal w = v'.equal w' := by
  rw [Bool.eq_iff_iff]
  constructor
  · intro h
    exact equal_trans hv.symm.equal (equal_trans h hw.equal)
  · intro h
    exact equal_trans hv.equal (equal_trans h hw.symm.equal)

/-! ### Order -/

theorem orderScalars_congr (hv : v.equal v' = true) (hw : w.equal w' = true)
    (h : orderScalars v w = .ok o) : orderScalars v' w' = .ok o := by
  rcases orderScalars_eq_ok.1 h with ⟨s, t, rfl, rfl, ho⟩ | ⟨x, y, hx, hy, ho⟩
  · exact orderScalars_eq_ok.2 (.inl ⟨s, t, eq_str_of_equal hv, eq_str_of_equal hw, ho⟩)
  · obtain ⟨x', hx', hxx⟩ := numeric?_congr hv hx
    obtain ⟨y', hy', hyy⟩ := numeric?_congr hw hy
    have ho' : x'.order y' = o := by
      rw [← ho, Double.order, Double.order, Double.same_iff.1 hxx, Double.same_iff.1 hyy]
    exact orderScalars_eq_ok.2 (.inr ⟨x', y', hx', hy', ho'⟩)

theorem orderItems?_congr
    (ih : ∀ v ∈ xs, ∀ v' w w' o, v.equal v' = true → w.equal w' = true → v.order? w = .ok o →
      v'.order? w' = .ok o)
    (hx : List.Forall₂ (fun v w => v.equal w = true) xs xs')
    (hy : List.Forall₂ (fun v w => v.equal w = true) ys ys')
    (h : orderItems? xs ys = .ok o) : orderItems? xs' ys' = .ok o := by
  induction hx generalizing ys ys' with
  | nil =>
    cases hy with
    | nil => exact h
    | cons => exact h
  | cons hv _ ihx =>
    cases hy with
    | nil => exact h
    | cons hw hy =>
      have hfirst := fun o => ih _ List.mem_cons_self _ _ _ o hv hw
      rcases orderItems?_cons.1 h with ⟨ho, hrest⟩ | ⟨ho, hne⟩
      · have hrest := ihx (fun v hv => ih v (List.mem_cons_of_mem _ hv)) hy hrest
        exact orderItems?_cons.2 (.inl ⟨hfirst _ ho, hrest⟩)
      · exact orderItems?_cons.2 (.inr ⟨hfirst _ ho, hne⟩)

/-- Values that equal comparable ones have the same order. -/
theorem order?_congr (hv : v.equal v' = true) (hw : w.equal w' = true) (h : v.order? w = .ok o) :
    v'.order? w' = .ok o := by
  induction v using Json.items_induction generalizing v' w w' o with
  | h v ih =>
    rcases order?_eq_ok.1 h with ⟨xs, ys, rfl, rfl, h⟩ | h
    · obtain ⟨xs', rfl, hx⟩ := isEquality_equal.arr_left hv
      obtain ⟨ys', rfl, hy⟩ := isEquality_equal.arr_left hw
      exact orderItems?_congr (fun v hv v' w w' o => ih xs rfl v hv) hx hy h
    · exact order?_eq_ok.2 (.inr (orderScalars_congr hv hw h))

theorem order?_eq_ok_congr (hv : Equated v v') (hw : Equated w w') :
    v.order? w = .ok o ↔ v'.order? w' = .ok o :=
  ⟨order?_congr hv.equal hw.equal, order?_congr hv.symm.equal hw.symm.equal⟩

theorem compareValues_congr (hv : Equated v v') (hw : Equated w w') :
    (v.compareValues w).mapError RuleError.kind = (v'.compareValues w').mapError RuleError.kind := by
  unfold compareValues
  cases ho : v.order? w with
  | ok o => rw [(order?_eq_ok_congr hv hw).1 ho]
  | error kinds =>
    cases ho' : v'.order? w' with
    | ok o => cases ho.symm.trans ((order?_eq_ok_congr hv hw).2 ho')
    | error kinds' => rfl

theorem ordered_eq_true {accept : Ordering → Bool} :
    v.ordered accept w = true ↔ ∃ o, v.order? w = .ok o ∧ accept o = true := by
  unfold ordered
  cases v.order? w <;> simp

theorem ordered_congr (accept : Ordering → Bool) (hv : Equated v v') (hw : Equated w w') :
    v.ordered accept w = v'.ordered accept w' := by
  rw [Bool.eq_iff_iff, ordered_eq_true, ordered_eq_true]
  exact exists_congr fun o => and_congr_left' (order?_eq_ok_congr hv hw)

end Json

/-! ### Operators -/

namespace Operator

open Json

variable {v v' w w' : Json} {xs ys : List Json}

theorem chained_congr (accept : Ordering → Bool) (h : List.Forall₂ Equated xs ys) :
    chained accept xs = chained accept ys := by
  induction h with
  | nil => rfl
  | cons hv hrest ih =>
    cases hrest with
    | nil => rfl
    | cons hw hrest =>
      have hfirst := ordered_congr accept hv hw
      cases hrest with
      | nil => exact hfirst
      | cons => exact congrArg₂ (· && ·) hfirst ih

theorem map_truthy_congr (h : List.Forall₂ Equated xs ys) : xs.map truthy = ys.map truthy := by
  induction h with
  | nil => rfl
  | cons hv _ ih => rw [List.map_cons, List.map_cons, ih, truthy_congr hv.equal]

theorem any_equal_congr (hv : Equated v v') (h : List.Forall₂ Equated xs ys) :
    xs.any (v.equal ·) = ys.any (v'.equal ·) := by
  induction h with
  | nil => rfl
  | cons hw _ ih => rw [List.any_cons, List.any_cons, ih, equal_congr hv hw]

/-! ### Membership -/

theorem isMember_of_numeric? {x : Double} (h : w.numeric? = some x) (v : Json) :
    isMember v w = .ok false := by
  cases w with
  | num | bool => rfl
  | _ => cases h

theorem isMember_obj_of_ne_str {fields : List (String × Json)} (h : ∀ s, v ≠ .str s) :
    isMember v (.obj fields) = .ok false := by
  cases v with
  | str s => exact absurd rfl (h s)
  | _ => rfl

theorem isMember_str_of_ne_str {s : String} (h : ∀ s, v ≠ .str s) :
    isMember v (.str s) = .error (.typeMismatch (.notString v.kind)) := by
  cases v with
  | str s => exact absurd rfl (h s)
  | _ => rfl

theorem isMember_congr (hv : Equated v v') (hw : Equated w w') :
    (isMember v w).mapError RuleError.kind = (isMember v' w').mapError RuleError.kind := by
  have hstr : ∀ s, v' = .str s → v = .str s := by
    rintro s rfl
    exact eq_str_of_equal hv.symm.equal
  cases w with
  | null =>
    rw [eq_null_of_equal hw.equal]
    rfl
  | num | bool =>
    obtain ⟨y, hy, -⟩ := numeric?_congr hw.equal rfl
    rw [isMember_of_numeric? hy]
    rfl
  | str text =>
    rw [eq_str_of_equal hw.equal]
    by_cases hs : ∃ s, v = .str s
    · obtain ⟨s, rfl⟩ := hs
      rw [eq_str_of_equal hv.equal]
    · rw [isMember_str_of_ne_str fun s h => hs ⟨s, h⟩,
        isMember_str_of_ne_str fun s h => hs ⟨s, hstr s h⟩]
      rfl
  | arr items =>
    obtain ⟨items', rfl, -⟩ := isEquality_equal.arr_left hw.equal
    simp only [isMember, any_equal_congr hv (equated_items hw)]
  | obj fields =>
    obtain ⟨fields', rfl, -⟩ := isEquality_equal.obj_left hw.equal
    by_cases hs : ∃ s, v = .str s
    · obtain ⟨s, rfl⟩ := hs
      have hperm := isEquality_equal.names_perm (wellFormed_obj.1 hw.left).1 hw.equal
      have hfield : (field? s fields).isSome = (field? s fields').isSome := by
        rw [Bool.eq_iff_iff, isSome_field?, isSome_field?, hperm.mem_iff]
      rw [eq_str_of_equal hv.equal]
      simp only [isMember, hfield]
    · rw [isMember_obj_of_ne_str fun s h => hs ⟨s, h⟩,
        isMember_obj_of_ne_str fun s h => hs ⟨s, hstr s h⟩]

/-! ### Operators that ask a question -/

/-- The operators that ask a question about their operands. -/
def questions : List Operator :=
  [.equal, .notEqual, .greater, .greaterOrEqual, .less, .lessOrEqual, .not, .all, .any, .count, .contains]

theorem mapError_map {α β : Type} {r r' : Result α} (f : α → β)
    (h : r.mapError RuleError.kind = r'.mapError RuleError.kind) :
    (f <$> r).mapError RuleError.kind = (f <$> r').mapError RuleError.kind := by
  have hmap : ∀ r : Result α, (f <$> r).mapError RuleError.kind = f <$> r.mapError RuleError.kind := by
    intro r
    cases r <;> rfl
  rw [hmap, hmap, h]

theorem forall₂_singleton {R : Json → Json → Prop} (h : List.Forall₂ R xs ys) (hlen : xs.length = 1) :
    ∃ a a', xs = [a] ∧ ys = [a'] ∧ R a a' := by
  obtain ⟨a, rfl⟩ := List.length_eq_one_iff.1 hlen
  cases h with
  | cons ha hrest =>
    cases hrest
    exact ⟨a, _, rfl, rfl, ha⟩

theorem forall₂_pair {R : Json → Json → Prop} (h : List.Forall₂ R xs ys) (hlen : xs.length = 2) :
    ∃ a b a' b', xs = [a, b] ∧ ys = [a', b'] ∧ R a a' ∧ R b b' := by
  obtain ⟨a, b, rfl⟩ := List.length_eq_two.1 hlen
  cases h with
  | cons ha hrest =>
    obtain ⟨_, b', hb, rfl, hbb⟩ := forall₂_singleton hrest rfl
    cases hb
    exact ⟨a, b, _, b', rfl, rfl, ha, hbb⟩

theorem value?_congr {op : Operator} (hop : op ∈ questions) (h : List.Forall₂ Equated xs ys)
    (harity : op.arity.accepts xs.length = true) (data : Json) :
    (op.value? data xs).mapError RuleError.kind = (op.value? data ys).mapError RuleError.kind := by
  have htruthy := map_truthy_congr h
  cases op with
  | equal | notEqual =>
    obtain ⟨a, b, a', b', rfl, rfl, ha, hb⟩ := forall₂_pair h (beq_iff_eq.1 harity)
    simp only [value?, equal_congr ha hb]
  | greater | greaterOrEqual =>
    obtain ⟨a, b, a', b', rfl, rfl, ha, hb⟩ := forall₂_pair h (beq_iff_eq.1 harity)
    exact mapError_map _ (compareValues_congr ha hb)
  | contains =>
    obtain ⟨a, b, a', b', rfl, rfl, ha, hb⟩ := forall₂_pair h (beq_iff_eq.1 harity)
    exact mapError_map _ (isMember_congr ha hb)
  | less | lessOrEqual => simp only [value?, chained_congr _ h]
  | not =>
    obtain ⟨a, a', rfl, rfl, ha⟩ := forall₂_singleton h (beq_iff_eq.1 harity)
    simp only [value?, truthy_congr ha.equal]
  | all =>
    have hall : xs.all truthy = ys.all truthy := by
      simpa only [List.all_map, Function.id_comp] using congrArg (List.all · id) htruthy
    simp only [value?, hall]
  | any =>
    have hany : xs.any truthy = ys.any truthy := by
      simpa only [List.any_map, Function.id_comp] using congrArg (List.any · id) htruthy
    simp only [value?, hany]
  | count =>
    have hcount : xs.countP truthy = ys.countP truthy := by
      simpa only [List.countP_map, Function.id_comp] using congrArg (List.countP id) htruthy
    simp only [value?, hcount]
  | _ => simp [questions] at hop

/-- Operators that ask a question give one answer, or fail in one way, on operands that are equal by
number. -/
theorem result_congr {op : Operator} (hop : op ∈ questions) {xs ys : List Json}
    (hxs : ∀ v ∈ xs, v.WellFormed) (hys : ∀ v ∈ ys, v.WellFormed)
    (h : List.Forall₂ (fun v w => v.equal w = true) xs ys) (data : Json) :
    (op.result xs data).mapError RuleError.kind = (op.result ys data).mapError RuleError.kind := by
  have hequated : List.Forall₂ Equated xs ys :=
    h.imp_of_mem fun v hv w hw he => ⟨hxs v hv, hys w hw, he⟩
  unfold result
  rw [← h.length_eq]
  split
  · rfl
  · split
    · rfl
    · rename_i harity _
      exact value?_congr hop hequated (by simpa using harity) data

/-- An array and an object in it are found again with other numbers and their fields turned round. -/
theorem result_congr_nested :
    let needle : Json := .arr [.ofInt 1, .obj [("a", .bool true), ("b", .ofInt 0)]]
    let needle' : Json := .arr [.bool true, .obj [("b", .bool false), ("a", .num (.double (.ofInt 1)))]]
    let container : Json := .arr [.null, .arr [.num (.double (.ofInt 1)),
      .obj [("b", .num (.double (.ofInt 0))), ("a", .ofInt 1)]]]
    let container' : Json := .arr [.null, .arr [.ofInt 1, .obj [("a", .ofInt 1), ("b", .bool false)]]]
    result .contains [needle, container] .null = .ok (.bool true) ∧
      (result .contains [needle', container'] .null).mapError RuleError.kind = .ok (.bool true) := by
  intro needle needle' container container'
  have hmember : isMember needle container = .ok true := by decide +kernel
  have hresult : result .contains [needle, container] .null = .ok (.bool true) :=
    congrArg (Json.bool <$> ·) hmember
  have hxs : ∀ v ∈ [needle, container], v.WellFormed := by
    simp [needle, container, ofInt, WellFormed, WellFormedItems, WellFormedFields, Number.InRange]
  have hys : ∀ v ∈ [needle', container'], v.WellFormed := by
    simp [needle', container', ofInt, WellFormed, WellFormedItems, WellFormedFields, Number.InRange]
  have hequal : List.Forall₂ (fun v w => v.equal w = true) [needle, container] [needle', container'] :=
    .cons (by decide +kernel) (.cons (by decide +kernel) .nil)
  refine ⟨hresult, ?_⟩
  rw [← result_congr (by simp [questions]) hxs hys hequal .null, hresult]
  rfl

end Operator
end JsonRules
