import JsonRules.Proofs.Rule.Collect
import JsonRules.Proofs.Rule.Offence

/-!
# Spelling does not matter

A rule and its normal spelling have the same positions, one for one (`positionsAt_normal`), and compile to
the same tree or fail for the same cause (`compileAt_normal`): every check sees the arguments of an operator
and what its name stands for, and these are all that the normal spelling keeps.
-/

namespace JsonRules
namespace Rule

variable {maxDepth depth : Nat} {name : String} {v : Json} {others : List (String × Json)}

/-! ### Normal spelling by arguments -/

theorem normal_literal (h : v.kind ≠ .object) : normal v = v := by
  cases v with
  | obj fields => exact absurd rfl h
  | _ => rfl

theorem normalAll_eq_map (items : List Json) : normalAll items = items.map normal := by
  induction items with
  | nil => rfl
  | cons v rest ih => rw [normalAll, ih, List.map_cons]

theorem normal_operation :
    normal (.obj ((name, v) :: others)) =
      .obj [(listedName name, .arr ((arguments v).map normal))] := by
  by_cases hv : ∃ items, v = .arr items
  · obtain ⟨items, rfl⟩ := hv
    rw [normal, normalAll_eq_map]
    rfl
  · rw [not_exists] at hv
    rw [normal, arguments_single hv]
    · rfl
    · exact hv

theorem isNormal_normal (v : Json) : IsNormal (normal v) := by
  match v with
  | .obj [] => exact .inl rfl
  | .obj ((name, w) :: others) =>
    rw [normal_operation]
    refine .inr ⟨_, _, rfl, ?_⟩
    unfold listedName
    split
    · decide
    · assumption
  | .null | .bool _ | .num _ | .str _ | .arr _ => trivial

/-! ### Compiling -/

theorem ofName?_listedName (name : String) : Operator.ofName? (listedName name) = Operator.ofName? name := by
  unfold listedName
  split
  · rename_i h
    rw [h]
    rfl
  · rfl

theorem operatorAt_listedName (count : Nat) :
    operatorAt maxDepth depth (listedName name) count = operatorAt maxDepth depth name count := by
  by_cases hname : name = "if"
  · unfold operatorAt
    rw [ofName?_listedName, hname]
    rfl
  · rw [listedName, if_neg hname]

theorem compileAll_congr {f : Json → Json} {items : List Json}
    (h : ∀ a ∈ items, compileAt maxDepth depth (f a) = compileAt maxDepth depth a) :
    compileAll maxDepth depth (items.map f) = compileAll maxDepth depth items := by
  induction items with
  | nil => rfl
  | cons a rest ih =>
    rw [List.map_cons, compileAll, compileAll, h a List.mem_cons_self,
      ih fun b hb => h b (List.mem_cons_of_mem a hb)]

theorem compileAt_normal (rule : Json) :
    compileAt maxDepth depth (normal rule) = compileAt maxDepth depth rule := by
  induction rule using Rule.induction generalizing depth with
  | literal v hv => rw [normal_literal hv]
  | empty => rfl
  | operation name v others ih =>
    have hargs : compileAll maxDepth (depth + 1) ((arguments v).map normal) =
        compileAll maxDepth (depth + 1) (arguments v) :=
      compileAll_congr fun a ha => ih a ha
    rw [normal_operation, compileAt_operation, compileAt_operation, arguments_arr, List.length_map,
      operatorAt_listedName, hargs]

/-! ### Positions -/

theorem positionsOfAll_eq_flatMap (depth : Nat) (items : List Json) :
    positionsOfAll depth items = items.flatMap (positionsAt depth) := by
  induction items with
  | nil => rfl
  | cons v rest ih => rw [positionsOfAll, ih, List.flatMap_cons]

theorem positionsAt_normal (rule : Json) :
    positionsAt depth (normal rule) =
      (positionsAt depth rule).map fun p => { p with rule := normal p.rule } := by
  induction rule using Rule.induction generalizing depth with
  | literal v hv => rw [normal_literal hv, positionsAt_literal hv, List.map_singleton, normal_literal hv]
  | empty => rfl
  | operation name v others ih =>
    have hargs : ((arguments v).map normal).flatMap (positionsAt (depth + 1)) =
        ((arguments v).flatMap (positionsAt (depth + 1))).map fun p => { p with rule := normal p.rule } := by
      rw [List.flatMap_map, List.map_flatMap]
      exact List.flatMap_congr fun a ha => ih a ha
    rw [positionsAt_operation, List.map_cons, normal_operation, positionsAt_operation, arguments_arr,
      positionsOfAll_eq_flatMap, positionsOfAll_eq_flatMap, hargs]

/-- A rule compiles as its normal spelling does: to the same tree with the same paths and functions, or to the
same error. The normal spelling has the positions of the rule, each spelled normally. -/
theorem compile_normal (maxDepth : Nat) (rule : Json) :
    compile maxDepth (normal rule) = compile maxDepth rule ∧
    collect maxDepth (normal rule) = collect maxDepth rule ∧
    positions (normal rule) = (positions rule).map (fun p => { p with rule := normal p.rule }) ∧
    ∀ p ∈ positions (normal rule), IsNormal p.rule := by
  have hcompile : compile maxDepth (normal rule) = compile maxDepth rule := compileAt_normal rule
  have hpositions : positions (normal rule) =
      (positions rule).map fun p => { p with rule := normal p.rule } := positionsAt_normal rule
  refine ⟨hcompile, ?_, hpositions, fun p hp => ?_⟩
  · rw [collect_eq, collect_eq, hcompile]
  · rw [hpositions] at hp
    obtain ⟨q, -, rfl⟩ := List.mem_map.1 hp
    exact isNormal_normal q.rule

/-- More keys, an argument without brackets and the other name of an operator are spelling; an object in a
list that is no argument list is data. -/
example : normal (.obj [("if", .arr [.obj [("!", .null), ("note", .null)], .arr [.obj [("if", .null)]],
    .obj []]), ("note", .null)]) =
    .obj [("?:", .arr [.obj [("!", .arr [.null])], .arr [.obj [("if", .null)]], .obj []])] := rfl

end Rule
end JsonRules
