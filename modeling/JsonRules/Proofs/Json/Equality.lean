import JsonRules.Proofs.Json.Parts
import JsonRules.Proofs.List
import Mathlib.Data.List.Perm.Subperm

/-!
# Equality of values

Both equalities go through arrays item by item and through objects name by name, and differ on scalars
only (`isEquality_same`, `isEquality_equal`). Whatever does so is an equivalence if it is one on scalars
(`IsEquality.refl`, `IsEquality.symm`, `IsEquality.trans`), where for the first two no object may have a
name twice, and is finer than another if it is so on scalars (`IsEquality.imp`).
-/

namespace JsonRules

theorem Double.same_iff {x y : Double} : x.same y = true ↔ x.units = y.units := by
  rw [same, beq_iff_eq]

theorem Double.same_refl (x : Double) : x.same x = true := same_iff.2 rfl

theorem Double.same_symm {x y : Double} (h : x.same y = true) : y.same x = true := by
  rw [same_iff] at h ⊢
  exact h.symm

theorem Double.same_trans {x y z : Double} (hxy : x.same y = true) (hyz : y.same z = true) :
    x.same z = true := by
  rw [same_iff] at hxy hyz ⊢
  exact hxy.trans hyz

namespace Json

/-- A relation that compares arrays item by item and objects name by name. -/
structure IsEquality (E : Json → Json → Bool) : Prop where
  arr (xs ys : List Json) : E (.arr xs) (.arr ys) = true ↔ List.Forall₂ (fun v w => E v w = true) xs ys
  obj (xs ys : List (String × Json)) : E (.obj xs) (.obj ys) = true ↔
    xs.length = ys.length ∧ ∀ p ∈ xs, ∃ w, field? p.1 ys = some w ∧ E p.2 w = true
  kind_iff {v w : Json} (h : E v w = true) :
    (v.kind = .array ↔ w.kind = .array) ∧ (v.kind = .object ↔ w.kind = .object)

variable {E : Json → Json → Bool} {u v w : Json} {xs ys : List (String × Json)}

namespace IsEquality

theorem isScalar_iff (hE : IsEquality E) (h : E v w = true) : v.IsScalar ↔ w.IsScalar := by
  obtain ⟨harr, hobj⟩ := hE.kind_iff h
  rw [IsScalar, IsScalar, Ne, Ne, harr, hobj]

theorem arr_left {items : List Json} (hE : IsEquality E) (h : E (.arr items) w = true) :
    ∃ items', w = .arr items' ∧ List.Forall₂ (fun v w => E v w = true) items items' := by
  obtain ⟨items', rfl⟩ := eq_arr_of_kind ((hE.kind_iff h).1.1 rfl)
  exact ⟨items', rfl, (hE.arr _ _).1 h⟩

theorem obj_left (hE : IsEquality E) (h : E (.obj xs) w = true) :
    ∃ ys, w = .obj ys ∧ xs.length = ys.length ∧
      ∀ p ∈ xs, ∃ w, field? p.1 ys = some w ∧ E p.2 w = true := by
  obtain ⟨ys, rfl⟩ := eq_obj_of_kind ((hE.kind_iff h).2.1 rfl)
  exact ⟨ys, rfl, (hE.obj _ _).1 h⟩

theorem names_perm (hE : IsEquality E) (hx : (xs.map Prod.fst).Nodup)
    (h : E (.obj xs) (.obj ys) = true) : (xs.map Prod.fst).Perm (ys.map Prod.fst) := by
  obtain ⟨hlen, hall⟩ := (hE.obj _ _).1 h
  have hsub : xs.map Prod.fst ⊆ ys.map Prod.fst := by
    intro name hname
    obtain ⟨p, hp, rfl⟩ := List.mem_map.1 hname
    obtain ⟨w, hw, -⟩ := hall p hp
    exact isSome_field?.1 (hw ▸ rfl)
  -- as many names without a repetition are all of them
  refine (List.Nodup.subperm hx hsub).perm_of_length_le ?_
  simp [hlen]

theorem refl (hE : IsEquality E) (hscalar : ∀ v : Json, v.IsScalar → E v v = true) (hv : v.WellFormed) :
    E v v = true := by
  induction v using Json.induction with
  | scalar v hs => exact hscalar v hs
  | arr items ih =>
    rw [wellFormed_arr] at hv
    exact (hE.arr _ _).2 (List.forall₂_same.2 fun v hmem => ih v hmem (hv v hmem))
  | obj xs ih =>
    obtain ⟨hnames, hvalues⟩ := wellFormed_obj.1 hv
    exact (hE.obj _ _).2 ⟨rfl, fun p hp => ⟨p.2, field?_of_mem hnames hp, ih p hp (hvalues p hp)⟩⟩

theorem symm (hE : IsEquality E)
    (hscalar : ∀ v w : Json, v.IsScalar → w.IsScalar → E v w = true → E w v = true)
    (hv : v.WellFormed) (hw : w.WellFormed) (h : E v w = true) : E w v = true := by
  induction v using Json.induction generalizing w with
  | scalar v hs => exact hscalar v w hs ((hE.isScalar_iff h).1 hs) h
  | arr items ih =>
    obtain ⟨items', rfl, hall⟩ := hE.arr_left h
    rw [wellFormed_arr] at hv hw
    have hflip : List.Forall₂ (flip fun w v => E w v = true) items items' :=
      hall.imp_of_mem fun v hv' w hw' h => ih v hv' (hv v hv') (hw w hw') h
    exact (hE.arr _ _).2 hflip.flip
  | obj xs ih =>
    obtain ⟨ys, rfl, hlen, hall⟩ := hE.obj_left h
    obtain ⟨hnx, hvx⟩ := wellFormed_obj.1 hv
    obtain ⟨hny, hvy⟩ := wellFormed_obj.1 hw
    refine (hE.obj _ _).2 ⟨hlen.symm, fun q hq => ?_⟩
    -- a field of the other object has one of the same name here, whose partner it must be
    obtain ⟨p, hp, hpq⟩ := List.mem_map.1 ((hE.names_perm hnx h).mem_iff.2 (List.mem_map_of_mem hq))
    obtain ⟨w, hw, hpw⟩ := hall p hp
    have hwq : w = q.2 := by
      rw [hpq, field?_of_mem hny hq] at hw
      exact (Option.some.inj hw).symm
    subst hwq
    exact ⟨p.2, hpq ▸ field?_of_mem hnx hp, ih p hp (hvx p hp) (hvy q hq) hpw⟩

theorem trans (hE : IsEquality E)
    (hscalar : ∀ u v w : Json, u.IsScalar → v.IsScalar → w.IsScalar → E u v = true → E v w = true →
      E u w = true)
    (huv : E u v = true) (hvw : E v w = true) : E u w = true := by
  induction u using Json.induction generalizing v w with
  | scalar u hs =>
    have hv := (hE.isScalar_iff huv).1 hs
    exact hscalar u v w hs hv ((hE.isScalar_iff hvw).1 hv) huv hvw
  | arr items ih =>
    obtain ⟨items', rfl, hxy⟩ := hE.arr_left huv
    obtain ⟨items'', rfl, hyz⟩ := hE.arr_left hvw
    exact (hE.arr _ _).2 (hxy.trans_of_mem hyz fun u hu v w => ih u hu)
  | obj xs ih =>
    obtain ⟨ys, rfl, hlen, hxy⟩ := hE.obj_left huv
    obtain ⟨zs, rfl, hlen', hyz⟩ := hE.obj_left hvw
    refine (hE.obj _ _).2 ⟨hlen.trans hlen', fun p hp => ?_⟩
    obtain ⟨v, hv, hpv⟩ := hxy p hp
    obtain ⟨w, hw, hvw⟩ := hyz (p.1, v) (mem_of_field? hv)
    exact ⟨w, hw, ih p hp hpv hvw⟩

/-- A relation that is finer on scalars is finer. -/
theorem imp {E' : Json → Json → Bool} (hE : IsEquality E) (hE' : IsEquality E')
    (hscalar : ∀ v w : Json, v.IsScalar → w.IsScalar → E v w = true → E' v w = true)
    (h : E v w = true) : E' v w = true := by
  induction v using Json.induction generalizing w with
  | scalar v hs => exact hscalar v w hs ((hE.isScalar_iff h).1 hs) h
  | arr items ih =>
    obtain ⟨items', rfl, hall⟩ := hE.arr_left h
    exact (hE'.arr _ _).2 (hall.imp_of_mem fun v hv w _ h => ih v hv h)
  | obj xs ih =>
    obtain ⟨ys, rfl, hlen, hall⟩ := hE.obj_left h
    refine (hE'.obj _ _).2 ⟨hlen, fun p hp => ?_⟩
    obtain ⟨w, hw, hpw⟩ := hall p hp
    exact ⟨w, hw, ih p hp hpw⟩

end IsEquality

/-! ### Equality of values of the same type -/

theorem sameItems_iff {xs ys : List Json} :
    sameItems xs ys = true ↔ List.Forall₂ (fun v w => v.same w = true) xs ys := by
  induction xs generalizing ys with
  | nil => cases ys <;> simp [sameItems]
  | cons v rest ih => cases ys <;> simp [sameItems, ih]

theorem sameFields_iff : sameFields xs ys = true ↔
    ∀ p ∈ xs, ∃ w, field? p.1 ys = some w ∧ p.2.same w = true := by
  induction xs with
  | nil => simp [sameFields]
  | cons p rest ih =>
    rw [sameFields, Bool.and_eq_true, ih, List.forall_mem_cons]
    cases field? p.1 ys <;> simp

theorem isEquality_same : IsEquality same where
  arr _ _ := sameItems_iff
  obj xs ys := by rw [same, Bool.and_eq_true, beq_iff_eq, sameFields_iff]
  kind_iff {v w} h := by cases v <;> cases w <;> simp [same, kind] at h ⊢

/-! ### Equality by number -/

theorem equalItems_iff {xs ys : List Json} :
    equalItems xs ys = true ↔ List.Forall₂ (fun v w => v.equal w = true) xs ys := by
  induction xs generalizing ys with
  | nil => cases ys <;> simp [equalItems]
  | cons v rest ih => cases ys <;> simp [equalItems, ih]

theorem equalFields_iff : equalFields xs ys = true ↔
    ∀ p ∈ xs, ∃ w, field? p.1 ys = some w ∧ p.2.equal w = true := by
  induction xs with
  | nil => simp [equalFields]
  | cons p rest ih =>
    rw [equalFields, Bool.and_eq_true, ih, List.forall_mem_cons]
    cases field? p.1 ys <;> simp

/-- Equal scalars count as the same number, are both null or the same string. -/
theorem equal_scalar (hv : v.IsScalar) : v.equal w = true ↔
    (∃ x y, v.numeric? = some x ∧ w.numeric? = some y ∧ x.same y = true) ∨
      v = .null ∧ w = .null ∨ ∃ s, v = .str s ∧ w = .str s := by
  rw [equal_of_isScalar hv]
  cases v with
  | arr => exact absurd rfl hv.1
  | obj => exact absurd rfl hv.2
  | str s =>
    cases w with
    | str t =>
      simp only [equalScalars, numeric?, same, beq_iff_eq, str.injEq]
      grind
    | _ => simp [equalScalars, numeric?, same]
  | _ => cases w <;> simp [equalScalars, numeric?, same]

theorem isEquality_equal : IsEquality equal where
  arr _ _ := equalItems_iff
  obj xs ys := by rw [equal, Bool.and_eq_true, beq_iff_eq, equalFields_iff]
  kind_iff {v w} h := by cases v <;> cases w <;> simp [equal, equalScalars, numeric?, same, kind] at h ⊢

theorem equal_symm (hv : v.WellFormed) (hw : w.WellFormed) (h : v.equal w = true) :
    w.equal v = true := by
  refine isEquality_equal.symm (fun v w hv hw h => (equal_scalar hw).2 ?_) hv hw h
  rcases (equal_scalar hv).1 h with ⟨x, y, hx, hy, hxy⟩ | ⟨rfl, rfl⟩ | ⟨s, rfl, rfl⟩
  · exact .inl ⟨y, x, hy, hx, Double.same_symm hxy⟩
  · exact .inr (.inl ⟨rfl, rfl⟩)
  · exact .inr (.inr ⟨s, rfl, rfl⟩)

theorem equal_trans (huv : u.equal v = true) (hvw : v.equal w = true) : u.equal w = true := by
  refine isEquality_equal.trans (fun u v w hu hv _ huv hvw => (equal_scalar hu).2 ?_) huv hvw
  rcases (equal_scalar hu).1 huv with ⟨x, y, hx, hy, hxy⟩ | ⟨rfl, rfl⟩ | ⟨s, rfl, rfl⟩
  · rcases (equal_scalar hv).1 hvw with ⟨y', z, hy', hz, hyz⟩ | ⟨rfl, -⟩ | ⟨s, rfl, -⟩
    · cases hy.symm.trans hy'
      exact .inl ⟨x, z, hx, hz, Double.same_trans hxy hyz⟩
    · cases hy
    · cases hy
  · exact .inr (.inl ⟨rfl, by simpa [equal_scalar hv, numeric?] using hvw⟩)
  · exact .inr (.inr ⟨s, rfl, by simpa [equal_scalar hv, numeric?] using hvw⟩)

end Json
end JsonRules
