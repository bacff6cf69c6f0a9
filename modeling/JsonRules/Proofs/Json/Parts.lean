import JsonRules.Json.Compare

/-!
# Values by their parts

`Json.induction` has one case for the values without parts, one for arrays and one for objects. Beside
it stand the lemmas on the parts: what well-formedness says of them, and which field a name selects.
-/

namespace JsonRules
namespace Json

/-- Neither an array nor an object. -/
def IsScalar (v : Json) : Prop := v.kind ≠ .array ∧ v.kind ≠ .object

/-- To show something of all values, show it of each from its items or from the values of its
fields. -/
theorem induction {motive : Json → Prop} (scalar : ∀ v : Json, v.IsScalar → motive v)
    (arr : ∀ items, (∀ v ∈ items, motive v) → motive (.arr items))
    (obj : ∀ fields, (∀ p ∈ fields, motive p.2) → motive (.obj fields)) (v : Json) : motive v := by
  refine Json.rec (motive_1 := motive) (motive_2 := fun items => ∀ v ∈ items, motive v)
    (motive_3 := fun fields => ∀ p ∈ fields, motive p.2) (motive_4 := fun p => motive p.2)
    (scalar _ ⟨nofun, nofun⟩) (fun _ => scalar _ ⟨nofun, nofun⟩) (fun _ => scalar _ ⟨nofun, nofun⟩)
    (fun _ => scalar _ ⟨nofun, nofun⟩) arr obj ?_ ?_ ?_ ?_ ?_ v
  · simp
  · intro w rest hw hrest u hu
    rcases List.mem_cons.1 hu with rfl | hu
    · exact hw
    · exact hrest u hu
  · simp
  · intro p rest hp hrest q hq
    rcases List.mem_cons.1 hq with rfl | hq
    · exact hp
    · exact hrest q hq
  · exact fun _ w hw => hw

/-- To show something of all values, show it of each from its items if it is an array. -/
theorem items_induction {motive : Json → Prop}
    (h : ∀ v, (∀ items, v = .arr items → ∀ w ∈ items, motive w) → motive v) (v : Json) :
    motive v := by
  induction v using Json.induction with
  | scalar v hv =>
    refine h v ?_
    rintro items rfl
    exact absurd rfl hv.1
  | arr items ih =>
    refine h _ ?_
    rintro items' ⟨⟩
    exact ih
  | obj fields => exact h _ nofun

theorem eq_arr_of_kind {v : Json} (h : v.kind = .array) : ∃ items, v = .arr items := by
  cases v <;> cases h
  exact ⟨_, rfl⟩

theorem eq_obj_of_kind {v : Json} (h : v.kind = .object) : ∃ fields, v = .obj fields := by
  cases v <;> cases h
  exact ⟨_, rfl⟩

theorem isScalar_of_numeric? {v : Json} {x : Double} (h : v.numeric? = some x) : v.IsScalar := by
  cases v with
  | num | bool => exact ⟨nofun, nofun⟩
  | _ => cases h

theorem equal_of_isScalar {v w : Json} (h : v.IsScalar) : v.equal w = equalScalars v w := by
  cases v with
  | arr items => exact absurd rfl h.1
  | obj fields => exact absurd rfl h.2
  | _ => rfl

/-! ### Well-formedness -/

theorem wellFormedItems_iff {items : List Json} :
    WellFormedItems items ↔ ∀ v ∈ items, v.WellFormed := by
  induction items with
  | nil => simp [WellFormedItems]
  | cons v rest ih => simp [WellFormedItems, ih]

theorem wellFormedFields_iff {fields : List (String × Json)} :
    WellFormedFields fields ↔ ∀ p ∈ fields, p.2.WellFormed := by
  induction fields with
  | nil => simp [WellFormedFields]
  | cons p rest ih => simp [WellFormedFields, ih]

theorem wellFormed_arr {items : List Json} :
    (arr items).WellFormed ↔ ∀ v ∈ items, v.WellFormed :=
  wellFormedItems_iff

theorem wellFormed_obj {fields : List (String × Json)} :
    (obj fields).WellFormed ↔ (fields.map Prod.fst).Nodup ∧ ∀ p ∈ fields, p.2.WellFormed :=
  and_congr_right' wellFormedFields_iff

/-! ### Fields by name -/

variable {name : String} {v : Json} {fields : List (String × Json)}

theorem field?_cons (name : String) (p : String × Json) (fields : List (String × Json)) :
    field? name (p :: fields) = if name = p.1 then some p.2 else field? name fields := by
  obtain ⟨name', v⟩ := p
  rw [field?, List.lookup_cons]
  by_cases h : name = name'
  · rw [if_pos h, beq_iff_eq.2 h]
  · rw [if_neg h, beq_eq_false_iff_ne.2 h]
    rfl

theorem mem_of_field? (h : field? name fields = some v) : (name, v) ∈ fields := by
  obtain ⟨before, after, rfl, -⟩ := List.lookup_eq_some_iff.1 h
  exact List.mem_append_right before List.mem_cons_self

theorem field?_of_mem (hn : (fields.map Prod.fst).Nodup) (h : (name, v) ∈ fields) :
    field? name fields = some v := by
  obtain ⟨before, after, rfl⟩ := List.append_of_mem h
  refine List.lookup_eq_some_iff.2 ⟨before, after, rfl, fun p hp => ?_⟩
  rw [List.map_append, List.map_cons] at hn
  have hne := (List.nodup_append.1 hn).2.2 p.1 (List.mem_map_of_mem hp) name List.mem_cons_self
  simpa using hne.symm

theorem isSome_field? : (field? name fields).isSome ↔ name ∈ fields.map Prod.fst := by
  rw [field?, List.lookup_isSome_iff, List.mem_map]
  refine exists_congr fun p => and_congr_right' ?_
  rw [beq_iff_eq]
  exact eq_comm

end Json
end JsonRules
