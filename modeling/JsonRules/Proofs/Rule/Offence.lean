import JsonRules.Proofs.Rule.Compile

/-!
# The first offence of a rule

Compiling goes through a rule as its positions are listed, and stops at the first that offends
(`failure?_compileAt`): the checks at a node are those of its position, and its arguments are compiled
from left to right with nothing in between. So the grammar that `compile` accepts is that no position
offends, and an error is always the first one (`compile_iff_firstOffence`).
-/

namespace JsonRules

variable {α β : Type}

/-- Why there is no value. -/
def Result.failure? : Result α → Option RuleError
  | .ok _ => none
  | .error e => some e

namespace Result

theorem failure?_eq_some {x : Result α} {e : RuleError} : x.failure? = some e ↔ x = .error e := by
  cases x <;> simp [failure?]

theorem failure?_eq_none {x : Result α} : x.failure? = none ↔ ∃ a, x = .ok a := by
  cases x <;> simp [failure?]

/-- Where the second step fails for the same cause whatever it is given, the first failure counts. -/
theorem failure?_bind {x : Result α} {f : α → Result β} {cause : Option RuleError}
    (hf : ∀ a, (f a).failure? = cause) : failure? (x >>= f) = x.failure?.or cause := by
  cases x with
  | ok a => exact hf a
  | error e => rfl

theorem failure?_bind_pure {x : Result α} (f : α → β) :
    failure? (x >>= fun a => pure (f a)) = x.failure? := by
  cases x <;> rfl

end Result

namespace Rule

variable {maxDepth depth : Nat} {name : String} {v : Json} {others : List (String × Json)}

/-! ### Positions by arguments -/

theorem positionsAt_literal (h : v.kind ≠ .object) : positionsAt depth v = [⟨depth, v⟩] := by
  cases v with
  | obj fields => exact absurd rfl h
  | _ => rfl

theorem positionsAt_operation :
    positionsAt depth (.obj ((name, v) :: others)) =
      ⟨depth, .obj ((name, v) :: others)⟩ :: positionsOfAll (depth + 1) (arguments v) := by
  by_cases hv : ∃ items, v = .arr items
  · obtain ⟨items, rfl⟩ := hv
    rfl
  · rw [not_exists] at hv
    rw [positionsAt, arguments_single hv, positionsOfAll, positionsOfAll, List.append_nil]
    exact hv

theorem argumentCount_eq : argumentCount v = (arguments v).length := by
  cases v <;> rfl

/-! ### Failures of compiling -/

theorem failure?_leaf (n : Node) (h : ∀ name args others, v ≠ .obj ((name, args) :: others)) :
    (leaf maxDepth depth n).failure? = offence? maxDepth ⟨depth, v⟩ := by
  unfold leaf offence?
  by_cases hd : maxDepth < depth
  · rw [if_pos hd, if_pos hd]
    rfl
  · rw [if_neg hd, if_neg hd]
    split
    · rename_i name args others hv
      exact absurd hv (h name args others)
    · rfl

theorem failure?_operatorAt (others : List (String × Json)) :
    (operatorAt maxDepth depth name (arguments v).length).failure? =
      offence? maxDepth ⟨depth, .obj ((name, v) :: others)⟩ := by
  rw [← argumentCount_eq]
  unfold operatorAt offence?
  by_cases hd : maxDepth < depth
  · rw [if_pos hd, if_pos hd]
    rfl
  · rw [if_neg hd, if_neg hd]
    dsimp only
    cases Operator.ofName? name with
    | none => rfl
    | some op => by_cases hcount : op.arity.accepts (argumentCount v) <;> simp [hcount, Result.failure?]

theorem failure?_compileAll {items : List Json}
    (h : ∀ a ∈ items, (compileAt maxDepth depth a).failure? =
      (positionsAt depth a).findSome? (offence? maxDepth)) :
    (compileAll maxDepth depth items).failure? =
      (positionsOfAll depth items).findSome? (offence? maxDepth) := by
  induction items with
  | nil => rfl
  | cons a rest ih =>
    have hrest := ih fun b hb => h b (List.mem_cons_of_mem a hb)
    have htail : ∀ n, Result.failure? (do return n :: (← compileAll maxDepth depth rest)) =
        (positionsOfAll depth rest).findSome? (offence? maxDepth) := by
      intro n
      rw [Result.failure?_bind_pure, hrest]
    rw [compileAll, Result.failure?_bind htail, h a List.mem_cons_self, positionsOfAll,
      List.findSome?_append]

/-- A rule that does not compile fails with the first offence of its positions. -/
theorem failure?_compileAt (rule : Json) :
    (compileAt maxDepth depth rule).failure? =
      (positionsAt depth rule).findSome? (offence? maxDepth) := by
  induction rule using Rule.induction generalizing depth with
  | literal v hv =>
    rw [compileAt_literal hv, positionsAt_literal hv, List.findSome?_singleton]
    refine failure?_leaf _ ?_
    rintro name args others rfl
    exact hv rfl
  | empty =>
    show (leaf maxDepth depth .empty).failure? = _
    rw [positionsAt, List.findSome?_singleton]
    exact failure?_leaf _ nofun
  | operation name v others ih =>
    have hnode : ∀ op, Result.failure? (do
        return assemble op (← compileAll maxDepth (depth + 1) (arguments v))) =
        (positionsOfAll (depth + 1) (arguments v)).findSome? (offence? maxDepth) := by
      intro op
      rw [Result.failure?_bind_pure, failure?_compileAll fun a ha => ih a ha]
    rw [compileAt_operation, Result.failure?_bind hnode, failure?_operatorAt others,
      positionsAt_operation, List.findSome?_cons]
    cases offence? maxDepth ⟨depth, .obj ((name, v) :: others)⟩ <;> rfl

/-- A rule compiles iff none of its positions offends. Otherwise the error is the offence of the first
position that does, where a parent goes before its children and these from left to right. -/
theorem compile_iff_firstOffence (maxDepth : Nat) (rule : Json) :
    ((∃ tree, compile maxDepth rule = .ok tree) ↔
      ∀ p ∈ positions rule, offence? maxDepth p = none) ∧
    ∀ err, compile maxDepth rule = .error err ↔
      ∃ before p after, positions rule = before ++ p :: after ∧
        (∀ q ∈ before, offence? maxDepth q = none) ∧ offence? maxDepth p = some err := by
  have hfailure : (compile maxDepth rule).failure? = firstOffence? maxDepth rule :=
    failure?_compileAt rule
  constructor
  · rw [← Result.failure?_eq_none, hfailure, firstOffence?, List.findSome?_eq_none_iff]
  · intro err
    rw [← Result.failure?_eq_some, hfailure, firstOffence?, List.findSome?_eq_some_iff]
    constructor
    · rintro ⟨before, p, after, hpositions, hp, hbefore⟩
      exact ⟨before, p, after, hpositions, hbefore, hp⟩
    · rintro ⟨before, p, after, hpositions, hbefore, hp⟩
      exact ⟨before, p, after, hpositions, hp, hbefore⟩

/-- Of three offences the one that stands first counts, though another is nearer to the root. -/
example : compile 2 (.obj [("and", .arr [.obj [("+", .obj [("!", .obj [])])], .obj [("xor", .null)]])]) =
    .error (.depthLimitExceeded 2) := rfl

end Rule
end JsonRules
