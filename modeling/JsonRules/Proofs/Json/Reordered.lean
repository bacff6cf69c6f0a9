import JsonRules.Json.Compare
import JsonRules.Proofs.Json.Equality
import JsonRules.Proofs.Json.Order
import Mathlib.Data.List.Sort

/-!
# Values up to the order of fields

`Json.sorted` lists the fields of all objects by name. To sort values changes neither what a path selects
in them (`at?_sorted`) nor how they compare (`same_sorted`, `equal_sorted`, `order?_sorted`). Sorting is
stable, so that even where a name stands twice it selects the field that it selected before.

Values are one another with fields reordered if and only if they are the same once sorted
(`Reordered.sorted_eq`, `reordered_of_sorted_eq`). For the first direction no object may have a name
twice: which of two fields of one name comes first makes a difference.

Equality by number is an equivalence on values without repeated names, and the equality that keeps
integers and doubles apart is finer. Neither sees the order of fields (`equal_equivalence`).
-/

namespace JsonRules

/-! ## Fields in order -/

namespace Json

/-- Fields are in the order of their names. -/
def NameLE (p q : String × Json) : Prop := p.1 ≤ q.1

instance : DecidableRel NameLE := fun p q => inferInstanceAs (Decidable (p.1 ≤ q.1))

instance : Std.Total NameLE := ⟨fun p q => String.le_total p.1 q.1⟩

instance : IsTrans (String × Json) NameLE := ⟨fun _ _ _ => String.le_trans⟩

mutual

/-- The same value with all fields in the order of their names. -/
def sorted : Json → Json
  | .arr items => .arr (sortedItems items)
  | .obj fields => .obj (sortedFields fields)
  | v => v

def sortedItems : List Json → List Json
  | [] => []
  | v :: rest => v.sorted :: sortedItems rest

def sortedFields : List (String × Json) → List (String × Json)
  | [] => []
  | (name, v) :: rest => List.orderedInsert NameLE (name, v.sorted) (sortedFields rest)

end

variable {u v w : Json} {items : List Json} {fields fields' : List (String × Json)} {name : String}

theorem sortedItems_eq (items : List Json) : sortedItems items = items.map sorted := by
  induction items with
  | nil => rfl
  | cons v rest ih => rw [sortedItems, ih, List.map_cons]

def sortedField (p : String × Json) : String × Json := (p.1, p.2.sorted)

theorem sortedFields_eq (fields : List (String × Json)) :
    sortedFields fields = (fields.map sortedField).insertionSort NameLE := by
  induction fields with
  | nil => rfl
  | cons p rest ih =>
    rw [sortedFields, ih]
    rfl

theorem sorted_arr (items : List Json) : (arr items).sorted = arr (items.map sorted) :=
  congrArg arr (sortedItems_eq items)

theorem sorted_obj (fields : List (String × Json)) :
    (obj fields).sorted = obj ((fields.map sortedField).insertionSort NameLE) :=
  congrArg obj (sortedFields_eq fields)

theorem sorted_of_isScalar (h : v.IsScalar) : v.sorted = v := by
  cases v with
  | arr items => exact absurd rfl h.1
  | obj fields => exact absurd rfl h.2
  | _ => rfl

theorem sortedFields_perm (fields : List (String × Json)) :
    (sortedFields fields).Perm (fields.map sortedField) := by
  rw [sortedFields_eq]
  exact List.perm_insertionSort NameLE _

/-! ### What a value is -/

theorem kind_sorted (v : Json) : v.sorted.kind = v.kind := by
  cases v <;> rfl

theorem isScalar_sorted : v.sorted.IsScalar ↔ v.IsScalar := by
  rw [IsScalar, IsScalar, kind_sorted]

theorem numeric?_sorted (v : Json) : v.sorted.numeric? = v.numeric? := by
  cases v <;> rfl

theorem truthy_sorted (v : Json) : v.sorted.truthy = v.truthy := by
  cases v with
  | arr items => cases items <;> rfl
  | obj fields =>
    have hempty := (sortedFields_perm fields).isEmpty_eq
    rw [List.isEmpty_map] at hempty
    exact congrArg (!·) hempty
  | _ => rfl

/-! ### Parts -/

theorem field?_orderedInsert (name : String) (p : String × Json) (fields : List (String × Json)) :
    field? name (List.orderedInsert NameLE p fields) = field? name (p :: fields) := by
  induction fields with
  | nil => rfl
  | cons q rest ih =>
    rw [List.orderedInsert_cons]
    split
    · rfl
    · rename_i hle
      have hne : p.1 ≠ q.1 := by
        intro h
        have hself : p.1 ≤ p.1 := String.le_refl p.1
        rw [NameLE, ← h] at hle
        exact hle hself
      rw [field?_cons, ih, field?_cons, field?_cons, field?_cons]
      grind

theorem field?_sortedFields (name : String) (fields : List (String × Json)) :
    field? name (sortedFields fields) = (field? name fields).map sorted := by
  induction fields with
  | nil => rfl
  | cons p rest ih =>
    rw [sortedFields, field?_orderedInsert, field?_cons, field?_cons, ih]
    split <;> rfl

theorem child?_sorted (v : Json) (segment : List Char) :
    v.sorted.child? segment = (v.child? segment).map sorted := by
  cases v with
  | arr items =>
    rw [sorted_arr]
    simp only [child?, List.getElem?_map]
    cases wordIndex? segment <;> rfl
  | obj fields => exact field?_sortedFields _ fields
  | _ => rfl

/-- A path selects the same part of a sorted value, sorted itself. -/
theorem at?_sorted (v : Json) (path : String) : v.sorted.at? path = (v.at? path).map sorted := by
  have hwalk : ∀ segments : List (List Char),
      segments.foldlM child? v.sorted = (segments.foldlM child? v).map sorted := by
    intro segments
    induction segments generalizing v with
    | nil => rfl
    | cons segment rest ih =>
      rw [List.foldlM_cons, List.foldlM_cons, child?_sorted]
      cases v.child? segment with
      | none => rfl
      | some w => exact ih w
  unfold at?
  split
  · rfl
  · exact hwalk _

/-! ### Comparison -/

namespace IsEquality

variable {E : Json → Json → Bool}

theorem forall₂_sorted {items items' : List Json}
    (ih : ∀ v ∈ items, ∀ w, E v.sorted w.sorted = true ↔ E v w = true) :
    List.Forall₂ (fun v w => E v w = true) (items.map sorted) (items'.map sorted) ↔
      List.Forall₂ (fun v w => E v w = true) items items' := by
  rw [List.forall₂_map_left_iff, List.forall₂_map_right_iff]
  constructor
  · intro h
    exact h.imp_of_mem fun v hv w _ => (ih v hv w).1
  · intro h
    exact h.imp_of_mem fun v hv w _ => (ih v hv w).2

theorem fields_sorted (ih : ∀ p ∈ fields, ∀ w, E p.2.sorted w.sorted = true ↔ E p.2 w = true) :
    (∀ p ∈ sortedFields fields, ∃ w, field? p.1 (sortedFields fields') = some w ∧ E p.2 w = true) ↔
      ∀ p ∈ fields, ∃ w, field? p.1 fields' = some w ∧ E p.2 w = true := by
  simp only [(sortedFields_perm fields).mem_iff, List.forall_mem_map, sortedField, field?_sortedFields]
  refine forall₂_congr fun p hp => ?_
  constructor
  · rintro ⟨w', hw', h⟩
    obtain ⟨w, hw, rfl⟩ := Option.map_eq_some_iff.1 hw'
    exact ⟨w, hw, (ih p hp w).1 h⟩
  · rintro ⟨w, hw, h⟩
    exact ⟨w.sorted, by rw [hw, Option.map_some], (ih p hp w).2 h⟩

/-- Sorted values are equal as they were before. -/
theorem sorted_iff (hE : IsEquality E) (v w : Json) : E v.sorted w.sorted = true ↔ E v w = true := by
  induction v using Json.induction generalizing w with
  | scalar v hv =>
    have hsame : w.IsScalar → (E v w.sorted = true ↔ E v w = true) := by
      intro hw
      rw [sorted_of_isScalar hw]
    rw [sorted_of_isScalar hv]
    constructor
    · intro h
      exact (hsame (isScalar_sorted.1 ((hE.isScalar_iff h).1 hv))).1 h
    · intro h
      exact (hsame ((hE.isScalar_iff h).1 hv)).2 h
  | arr items ih =>
    have harr : ∀ items', E (Json.arr items).sorted (Json.arr items').sorted = true ↔
        E (.arr items) (.arr items') = true := by
      intro items'
      rw [sorted_arr, sorted_arr, hE.arr, hE.arr, forall₂_sorted ih]
    constructor
    · intro h
      have hkind := (kind_sorted w).symm.trans ((hE.kind_iff h).1.1 rfl)
      obtain ⟨items', rfl⟩ := eq_arr_of_kind hkind
      exact (harr items').1 h
    · intro h
      obtain ⟨items', rfl, -⟩ := hE.arr_left h
      exact (harr items').2 h
  | obj fields ih =>
    have hobj : ∀ fields', E (Json.obj fields).sorted (Json.obj fields').sorted = true ↔
        E (.obj fields) (.obj fields') = true := by
      intro fields'
      have hlen : ∀ fields, (sortedFields fields).length = fields.length := fun fields =>
        (sortedFields_perm fields).length_eq.trans (List.length_map sortedField)
      rw [sorted, sorted, hE.obj, hE.obj, hlen, hlen, fields_sorted ih]
    constructor
    · intro h
      have hkind := (kind_sorted w).symm.trans ((hE.kind_iff h).2.1 rfl)
      obtain ⟨fields', rfl⟩ := eq_obj_of_kind hkind
      exact (hobj fields').1 h
    · intro h
      obtain ⟨fields', rfl, -⟩ := hE.obj_left h
      exact (hobj fields').2 h

end IsEquality

theorem same_sorted (v w : Json) : v.sorted.same w.sorted = v.same w :=
  Bool.eq_iff_iff.2 (isEquality_same.sorted_iff v w)

theorem equal_sorted (v w : Json) : v.sorted.equal w.sorted = v.equal w :=
  Bool.eq_iff_iff.2 (isEquality_equal.sorted_iff v w)

theorem orderScalars_sorted (v w : Json) : orderScalars v.sorted w.sorted = orderScalars v w := by
  cases v <;> cases w <;> rfl

theorem orderItems?_sorted {items items' : List Json}
    (ih : ∀ v ∈ items, ∀ w : Json, v.sorted.order? w.sorted = v.order? w) :
    orderItems? (items.map sorted) (items'.map sorted) = orderItems? items items' := by
  induction items generalizing items' with
  | nil => cases items' <;> rfl
  | cons v rest ihrest =>
    cases items' with
    | nil => rfl
    | cons w rest' =>
      have hrest : orderItems? (rest.map sorted) (rest'.map sorted) = orderItems? rest rest' :=
        ihrest fun v hv => ih v (List.mem_cons_of_mem _ hv)
      rw [List.map_cons, List.map_cons, orderItems?, orderItems?, ih v List.mem_cons_self, hrest]

theorem order?_sorted (v w : Json) : v.sorted.order? w.sorted = v.order? w := by
  induction v using Json.items_induction generalizing w with
  | h v ih =>
    by_cases hv : v.kind = .array
    · obtain ⟨items, rfl⟩ := eq_arr_of_kind hv
      by_cases hw : w.kind = .array
      · obtain ⟨items', rfl⟩ := eq_arr_of_kind hw
        rw [sorted_arr, sorted_arr, order?_arr, order?_arr, orderItems?_sorted (ih items rfl)]
      · rw [order?_of_ne_array_right hw, order?_of_ne_array_right (kind_sorted w ▸ hw),
          orderScalars_sorted]
    · rw [order?_of_ne_array_left hv, order?_of_ne_array_left (kind_sorted v ▸ hv), orderScalars_sorted]

end Json

/-! ## Reordered values -/

namespace Json

variable {v w : Json} {fields fields' : List (String × Json)}

namespace Reordered

theorem symm (h : Reordered v w) : Reordered w v := by
  induction h with
  | refl v => exact .refl v
  | fields h => exact .fields h.symm
  | item before after _ ih => exact .item before after ih
  | field before after name _ ih => exact .field before after name ih
  | trans _ _ ih ih' => exact .trans ih' ih

/-! ### Reordered values are the same once sorted -/

theorem wellFormed (h : Reordered v w) (hv : v.WellFormed) : w.WellFormed := by
  induction h with
  | refl => exact hv
  | fields h =>
    obtain ⟨hnames, hvalues⟩ := wellFormed_obj.1 hv
    exact wellFormed_obj.2 ⟨(h.map Prod.fst).nodup_iff.1 hnames, fun p hp => hvalues p (h.mem_iff.2 hp)⟩
  | item before after _ ih =>
    simp only [wellFormed_arr, List.forall_mem_append, List.forall_mem_cons] at hv ⊢
    exact ⟨hv.1, ih hv.2.1, hv.2.2⟩
  | field before after name _ ih =>
    simp only [wellFormed_obj, List.forall_mem_append, List.forall_mem_cons, List.map_append,
      List.map_cons] at hv ⊢
    exact ⟨hv.1, hv.2.1, ih hv.2.2.1, hv.2.2.2⟩
  | trans _ _ ih ih' => exact ih' (ih hv)

/-- Fields whose names differ have one place each in the order of their names. -/
theorem sortedFields_eq_of_perm (hnames : (fields.map Prod.fst).Nodup) (h : fields.Perm fields') :
    sortedFields fields = sortedFields fields' := by
  have hperm : (sortedFields fields).Perm (sortedFields fields') :=
    (sortedFields_perm fields).trans ((h.map sortedField).trans (sortedFields_perm fields').symm)
  have hnames' : ((sortedFields fields).map Prod.fst).Nodup := by
    rw [((sortedFields_perm fields).map Prod.fst).nodup_iff, List.map_map]
    exact hnames
  have hsorted : ∀ fields, (sortedFields fields).Pairwise NameLE := fun fields => by
    rw [sortedFields_eq]
    exact List.pairwise_insertionSort NameLE _
  refine hperm.eq_of_pairwise (fun p q hp hq hle hge => ?_) (hsorted fields) (hsorted fields')
  have hname : p.1 = q.1 := String.le_antisymm hle hge
  have hvalue := field?_of_mem hnames' (hperm.mem_iff.2 hq)
  rw [← hname, field?_of_mem hnames' hp] at hvalue
  exact Prod.ext hname (Option.some.inj hvalue)

theorem sorted_eq (h : Reordered v w) (hv : v.WellFormed) : v.sorted = w.sorted := by
  induction h with
  | refl => rfl
  | fields h => exact congrArg obj (sortedFields_eq_of_perm (wellFormed_obj.1 hv).1 h)
  | item before after _ ih =>
    simp only [wellFormed_arr, List.forall_mem_append, List.forall_mem_cons] at hv
    rw [sorted_arr, sorted_arr, List.map_append, List.map_append, List.map_cons, List.map_cons, ih hv.2.1]
  | field before after name _ ih =>
    simp only [wellFormed_obj, List.forall_mem_append, List.forall_mem_cons] at hv
    rw [sorted_obj, sorted_obj, List.map_append, List.map_append, List.map_cons, List.map_cons,
      sortedField, sortedField, ih hv.2.2.1]
  | trans h _ ih ih' => exact (ih hv).trans (ih' (h.wellFormed hv))

/-! ### Values that are the same once sorted are reordered -/

/-- Where each part of a list may be replaced by its image, all of them may. -/
theorem map_of_step {α : Type} {Q : List α → Json} {f : α → α} (before : List α) {parts : List α}
    (h : ∀ x ∈ parts, ∀ before after, Reordered (Q (before ++ x :: after)) (Q (before ++ f x :: after))) :
    Reordered (Q (before ++ parts)) (Q (before ++ parts.map f)) := by
  induction parts generalizing before with
  | nil => exact .refl _
  | cons x rest ih =>
    obtain ⟨hx, hrest⟩ := List.forall_mem_cons.1 h
    have hfirst := hx before rest
    rw [List.append_cons before (f x) rest] at hfirst
    rw [List.map_cons, List.append_cons before (f x) (rest.map f)]
    exact hfirst.trans (ih _ hrest)

end Reordered

theorem reordered_sorted (v : Json) : v.Reordered v.sorted := by
  induction v using Json.induction with
  | scalar v hv =>
    rw [sorted_of_isScalar hv]
    exact .refl v
  | arr items ih =>
    rw [sorted_arr]
    exact Reordered.map_of_step [] fun v hv before after => .item before after (ih v hv)
  | obj fields ih =>
    have hfields : (obj fields).Reordered (.obj (fields.map sortedField)) :=
      Reordered.map_of_step [] fun p hp before after => .field before after p.1 (ih p hp)
    exact hfields.trans (.fields (sortedFields_perm fields).symm)

theorem reordered_of_sorted_eq (h : v.sorted = w.sorted) : v.Reordered w := by
  have hw := (reordered_sorted w).symm
  rw [← h] at hw
  exact (reordered_sorted v).trans hw

end Json

/-! ## Equality by number as an equivalence -/

/-- Numbers that are equal in kind and value count as equal doubles. -/
theorem Number.same_toDouble {m n : Number} (h : m.same n = true) : m.toDouble.same n.toDouble = true := by
  cases m with
  | int m =>
    cases n with
    | int n =>
      rw [eq_of_beq h]
      exact Double.same_refl _
    | double y => cases h
  | double x =>
    cases n with
    | int n => cases h
    | double y => exact h

namespace Json

variable {u v w u' v' : Json}

theorem equal_refl_of_isScalar (hv : v.IsScalar) : v.equal v = true := by
  rw [equal_scalar hv]
  cases v with
  | null => exact .inr (.inl ⟨rfl, rfl⟩)
  | bool | num => exact .inl ⟨_, _, rfl, rfl, Double.same_refl _⟩
  | str s => exact .inr (.inr ⟨s, rfl, rfl⟩)
  | arr => exact absurd rfl hv.1
  | obj => exact absurd rfl hv.2

theorem equal_refl (hv : v.WellFormed) : v.equal v = true :=
  isEquality_equal.refl (fun _ => equal_refl_of_isScalar) hv

theorem numeric?_of_same {x y : Double} (hx : v.numeric? = some x) (hy : w.numeric? = some y)
    (h : v.same w = true) : x.same y = true := by
  cases v with
  | num m =>
    cases w with
    | num n =>
      cases hx
      cases hy
      exact Number.same_toDouble h
    | _ => cases h
  | bool a =>
    cases w with
    | bool b =>
      rw [same, beq_iff_eq] at h
      subst h
      cases hx
      cases hy
      exact Double.same_refl _
    | _ => cases h
  | _ => cases hx

theorem equal_of_same_of_isScalar (hv : v.IsScalar) (h : v.same w = true) : v.equal w = true := by
  rw [equal_of_isScalar hv]
  unfold equalScalars
  split
  · rename_i x y hx hy
    exact numeric?_of_same hx hy h
  · exact h

theorem equal_of_same (h : v.same w = true) : v.equal w = true :=
  isEquality_same.imp isEquality_equal (fun _ _ hv _ => equal_of_same_of_isScalar hv) h

theorem kind_of_same (h : v.same w = true) : v.kind = w.kind := by
  cases v <;> cases w <;> first | rfl | cases h

theorem equal_reordered (hu : u.WellFormed) (hv : v.WellFormed) (huu : u.Reordered u')
    (hvv : v.Reordered v') : u'.equal v' = u.equal v := by
  rw [← equal_sorted u v, huu.sorted_eq hu, hvv.sorted_eq hv, equal_sorted]

theorem same_reordered (hu : u.WellFormed) (hv : v.WellFormed) (huu : u.Reordered u')
    (hvv : v.Reordered v') : u'.same v' = u.same v := by
  rw [← same_sorted u v, huu.sorted_eq hu, hvv.sorted_eq hv, same_sorted]

/-- Equality by number is an equivalence, and coarser than equality of values of the same type; both are
the same after the fields of any objects inside the two values are reordered. -/
theorem equal_equivalence (hu : u.WellFormed) (hv : v.WellFormed) (w : Json) :
    u.equal u = true ∧
    (u.equal v = true → v.equal u = true) ∧
    (u.equal v = true → v.equal w = true → u.equal w = true) ∧
    (u.same v = true → u.kind = v.kind ∧ u.equal v = true) ∧
    ∀ u' v', u.Reordered u' → v.Reordered v' → u'.equal v' = u.equal v ∧ u'.same v' = u.same v := by
  refine ⟨equal_refl hu, equal_symm hu hv, equal_trans, ?_, fun u' v' huu hvv => ?_⟩
  · intro h
    exact ⟨kind_of_same h, equal_of_same h⟩
  · exact ⟨equal_reordered hu hv huu hvv, same_reordered hu hv huu hvv⟩

/-- Integers, doubles and booleans mixed inside objects, whose fields stand in different orders. -/
theorem equal_equivalence_mixed :
    let one : Json := .num (.double (.ofInt 1))
    let u : Json := .arr [.ofInt 1, .obj [("a", .bool true), ("b", .ofInt 0)]]
    let u' : Json := .arr [.ofInt 1, .obj [("b", .ofInt 0), ("a", .bool true)]]
    let v : Json := .arr [one, .obj [("b", .bool false), ("a", .ofInt 1)]]
    let w : Json := .arr [.bool true, .obj [("a", one), ("b", .ofInt 0)]]
    u.equal u = true ∧ v.equal u = true ∧ u.equal w = true ∧ u'.equal u = true ∧
      u'.equal v = true ∧ u'.same v = false := by
  intro one u u' v w
  have hu : u.WellFormed := by
    simp [u, ofInt, WellFormed, WellFormedItems, WellFormedFields, Number.InRange]
  have hv : v.WellFormed := by
    simp [v, one, ofInt, WellFormed, WellFormedItems, WellFormedFields, Number.InRange]
  have huv : u.equal v = true := by decide +kernel
  have hvw : v.equal w = true := by decide +kernel
  have hsame : u.same v = false := by decide +kernel
  have huu : u.Reordered u' := .item [.ofInt 1] [] (.fields (.swap _ _ _))
  have hself : u.same u = true := by decide +kernel
  clear_value u u' v w
  obtain ⟨hrefl, hsymm, htrans, -, hreordered⟩ := equal_equivalence hu hv w
  obtain ⟨hequal, hdistinct⟩ := hreordered u' v huu (.refl v)
  obtain ⟨-, -, -, hcoarse, hreordered'⟩ := equal_equivalence hu hu w
  have hturned := (hreordered' u' u huu (.refl u)).1
  exact ⟨hrefl, hsymm huv, htrans huv hvw, hturned.trans (hcoarse hself).2, hequal.trans huv,
    hdistinct.trans hsame⟩

end Json
end JsonRules
