import JsonRules.Proofs.Json.Parts
import JsonRules.Proofs.Rule.Compile
import JsonRules.Rule.Evaluate
import JsonRules.Rule.Tree

/-!
# Which trees rules have

What is defined on trees with one case for operations and two for iterations is told here by the
operator and the children of a node: how the node is assembled (`WellFormed.assemble_children`), its
rule (`rule_of_operator?`), its height (`height_le_iff`), and its literals.

The trees of rules up to some depth are the well-formed trees up to that height, no others and none
left out (`exists_compile_iff`). One half is an invariant of compiling; for the other a tree is written
as a rule and compiles to itself (`compileAt_rule`).
-/

namespace JsonRules

/-! ## Trees by their children -/

namespace Node

variable {n m : Node} {op : Operator} {args : List Node}

/-- Every literal is a value that documents can have. -/
def LiteralsWellFormed (n : Node) : Prop :=
  ∀ inPredicate v, n.Holds inPredicate (.literal v) → v.WellFormed

/-- To show something of all trees, show it of those without an operator, and of those with one from
their children. -/
theorem children_induction {motive : Node → Prop} (literal : ∀ v, motive (.literal v))
    (empty : motive .empty)
    (operator : ∀ n op, n.operator? = some op → (∀ m ∈ n.children, motive m) → motive n)
    (n : Node) : motive n := by
  induction n using Node.induction with
  | literal v => exact literal v
  | empty => exact empty
  | operation op args ih => exact operator _ op rfl ih
  | iteration op source predicate initial ihs ihp ihi =>
    refine operator _ op rfl fun m hm => ?_
    obtain rfl | rfl | hm : m = source ∨ m = predicate ∨ m ∈ initial := by
      simpa [children] using hm
    · exact ihs
    · exact ihp
    · exact ihi m hm

/-! ### Well-formed nodes -/

theorem WellFormed.accepts (h : n.WellFormed) (hop : n.operator? = some op) :
    op.arity.accepts n.children.length = true := by
  match n, hop with
  | .operation op args, rfl => exact h.2.1
  | .iteration op source predicate none, rfl =>
    obtain ⟨hop, -⟩ := h
    cases op <;> first | rfl | cases hop
  | .iteration op source predicate (some initial), rfl =>
    obtain ⟨rfl, -⟩ := h
    rfl

theorem WellFormed.assemble_children (h : n.WellFormed) (hop : n.operator? = some op) :
    Rule.assemble op n.children = n := by
  match n, hop with
  | .operation op args, rfl => simp [Rule.assemble, children, h.1]
  | .iteration op source predicate none, rfl => simp [Rule.assemble, children, h.1]
  | .iteration op source predicate (some initial), rfl =>
    obtain ⟨rfl, -⟩ := h
    rfl

theorem WellFormed.of_mem_children (h : n.WellFormed) (hm : m ∈ n.children) : m.WellFormed := by
  match n with
  | .literal _ | .empty => cases hm
  | .operation op args => exact allWellFormed_iff.1 h.2.2 m hm
  | .iteration op source predicate none =>
    obtain ⟨-, hs, hp⟩ := h
    obtain rfl | rfl : m = source ∨ m = predicate := by simpa [children] using hm
    · exact hs
    · exact hp
  | .iteration op source predicate (some initial) =>
    obtain ⟨-, hs, hp, hi⟩ := h
    obtain rfl | rfl | rfl : m = source ∨ m = predicate ∨ m = initial := by
      simpa [children] using hm
    · exact hs
    · exact hp
    · exact hi

/-! ### Heights -/

theorem heightOfAll_le_iff {k : Nat} : heightOfAll args ≤ k ↔ ∀ m ∈ args, m.height < k := by
  induction args with
  | nil => simp [heightOfAll]
  | cons m rest ih => rw [heightOfAll, Nat.max_le, Nat.succ_le_iff, ih, List.forall_mem_cons]

/-- The height of a node comes from those of its children. -/
theorem height_le_iff {k : Nat} : n.height ≤ k ↔ ∀ m ∈ n.children, m.height < k := by
  match n with
  | .literal _ | .empty => simp [height, children]
  | .operation op args => exact heightOfAll_le_iff
  | .iteration op source predicate none =>
    rw [← heightOfAll_le_iff]
    simp only [height, children, Option.toList, heightOfAll]
    omega
  | .iteration op source predicate (some initial) =>
    rw [← heightOfAll_le_iff]
    simp only [height, children, Option.toList, heightOfAll]
    omega

theorem children_assemble (op : Operator) (args : List Node) :
    (Rule.assemble op args).children = args := by
  unfold Rule.assemble
  split
  · split <;> rfl
  · rfl

theorem operator?_assemble (op : Operator) (args : List Node) :
    (Rule.assemble op args).operator? = some op := by
  unfold Rule.assemble
  split
  · split <;> rfl
  · rfl

/-! ### Rules and literals -/

theorem rules_eq_map (args : List Node) : rules args = args.map rule := by
  induction args with
  | nil => rfl
  | cons m rest ih => rw [rules, ih, List.map_cons]

theorem rule_of_operator? (hop : n.operator? = some op) :
    n.rule = .obj [(op.name, .arr (n.children.map rule))] := by
  match n, hop with
  | .operation op args, rfl => rw [rule, rules_eq_map, children]
  | .iteration op source predicate none, rfl => rfl
  | .iteration op source predicate (some initial), rfl => rfl

theorem holds_literal_of_operator? (hop : n.operator? = some op) {v : Json} :
    (∃ b, n.Holds b (.literal v)) ↔ ∃ m ∈ n.children, ∃ b, m.Holds b (.literal v) := by
  match n, hop with
  | .operation op args, rfl =>
    simp only [holds_operation, reduceCtorEq, and_false, false_or, children]
    exact ⟨fun ⟨b, m, hm, h⟩ => ⟨m, hm, b, h⟩, fun ⟨m, hm, b, h⟩ => ⟨b, m, hm, h⟩⟩
  | .iteration op source predicate initial, rfl =>
    simp only [holds_iteration, reduceCtorEq, and_false, false_or, children, List.mem_cons,
      Option.mem_toList]
    constructor
    · rintro ⟨b, h | ⟨-, c, h⟩ | ⟨m, hm, h⟩⟩
      · exact ⟨source, .inl rfl, b, h⟩
      · exact ⟨predicate, .inr (.inl rfl), c, h⟩
      · exact ⟨m, .inr (.inr hm), b, h⟩
    · rintro ⟨m, rfl | rfl | hm, b, h⟩
      · exact ⟨b, .inl h⟩
      · exact ⟨true, .inr (.inl ⟨rfl, b, h⟩)⟩
      · exact ⟨b, .inr (.inr ⟨m, hm, h⟩)⟩

theorem literalsWellFormed_literal {v : Json} :
    (literal v).LiteralsWellFormed ↔ v.WellFormed := by
  simp [LiteralsWellFormed, holds_literal]

theorem literalsWellFormed_iff (hop : n.operator? = some op) :
    n.LiteralsWellFormed ↔ ∀ m ∈ n.children, m.LiteralsWellFormed := by
  constructor
  · intro h m hm b v hv
    obtain ⟨c, hc⟩ := (holds_literal_of_operator? hop).2 ⟨m, hm, b, hv⟩
    exact h c v hc
  · intro h b v hv
    obtain ⟨m, hm, c, hc⟩ := (holds_literal_of_operator? hop).1 ⟨b, hv⟩
    exact h m hm c v hc

/-- A tree whose literals are values of documents is written as a value of documents. -/
theorem LiteralsWellFormed.rule (h : n.LiteralsWellFormed) : n.rule.WellFormed := by
  induction n using children_induction with
  | literal v => exact literalsWellFormed_literal.1 h
  | empty => exact Json.wellFormed_obj.2 ⟨.nil, nofun⟩
  | operator n op hop ih =>
    rw [rule_of_operator? hop, Json.wellFormed_obj]
    refine ⟨by simp, fun p hp => ?_⟩
    rw [List.mem_singleton.1 hp, Json.wellFormed_arr]
    intro v hv
    obtain ⟨m, hm, rfl⟩ := List.mem_map.1 hv
    exact ih m hm ((literalsWellFormed_iff hop).1 h m hm)

/-! ### Nesting -/

theorem mapM_eq_evaluateAll {f : Node → Program Json} {data : Json}
    (h : ∀ n ∈ args, f n = n.evaluate data) : args.mapM f = evaluateAll args data := by
  induction args with
  | nil => rfl
  | cons n rest ih =>
    rw [List.mapM_cons, evaluateAll, h n List.mem_cons_self,
      ih fun m hm => h m (List.mem_cons_of_mem n hm)]

/-- The nodes that are under evaluation at a time are never more than one above the height. -/
theorem evaluateWithin_of_height_lt (beyond : Program Json) {limit : Nat} (h : n.height < limit)
    (data : Json) : n.evaluateWithin beyond limit data = n.evaluate data := by
  induction n using Node.induction generalizing limit data with
  | literal | empty =>
    obtain ⟨limit, rfl⟩ := Nat.exists_eq_add_one_of_ne_zero (Nat.ne_zero_of_lt h)
    rfl
  | operation op args ih =>
    obtain ⟨limit, rfl⟩ := Nat.exists_eq_add_one_of_ne_zero (Nat.ne_zero_of_lt h)
    have hargs := height_le_iff.1 (Nat.le_of_lt_succ h)
    rw [evaluateWithin, evaluate, mapM_eq_evaluateAll fun n hn => ih n hn (hargs n hn) data]
  | iteration op source predicate initial ihs ihp ihi =>
    obtain ⟨limit, rfl⟩ := Nat.exists_eq_add_one_of_ne_zero (Nat.ne_zero_of_lt h)
    have hparts := height_le_iff.1 (Nat.le_of_lt_succ h)
    have hs := ihs (hparts source (by simp [children]))
    have hp := funext (ihp (hparts predicate (by simp [children])))
    cases initial with
    | none => rw [evaluateWithin, evaluate, hs, hp]
    | some initial =>
      have hi := ihi initial rfl (hparts initial (by simp [children]))
      rw [evaluateWithin, evaluate, hs, hp, hi]

end Node

/-! ## Trees and rules -/

theorem Operator.ofName?_name (op : Operator) : ofName? op.name = some op := by
  cases op <;> rfl

namespace Rule

variable {maxDepth depth : Nat} {rule : Json} {n : Node}

/-! ### The trees that compiling gives -/

theorem le_of_compileAt (h : compileAt maxDepth depth rule = .ok n) : depth ≤ maxDepth := by
  induction rule using Rule.induction with
  | literal v hv =>
    rw [compileAt_literal hv] at h
    exact (leaf_eq_ok.1 h).1
  | empty => exact (leaf_eq_ok.1 h).1
  | operation name v others =>
    rw [compileAt_operation] at h
    obtain ⟨op, hop, -⟩ := Result.bind_eq_ok.1 h
    exact (operatorAt_eq_ok.1 hop).1

theorem compileAt_height (h : compileAt maxDepth depth rule = .ok n) :
    depth + n.height ≤ maxDepth := by
  have hdepth := le_of_compileAt h
  induction rule using Rule.induction generalizing depth n with
  | literal v hv =>
    rw [compileAt_literal hv] at h
    obtain ⟨-, rfl⟩ := leaf_eq_ok.1 h
    exact hdepth
  | empty =>
    obtain ⟨-, rfl⟩ := leaf_eq_ok.1 h
    exact hdepth
  | operation name v others ih =>
    obtain ⟨op, args, -, -, hall, rfl⟩ := compileAt_operation_eq_ok h
    have hheight : (assemble op args).height ≤ maxDepth - depth := by
      rw [Node.height_le_iff, Node.children_assemble]
      intro m hm
      obtain ⟨a, ha, hm⟩ := hall.exists_of_mem_right m hm
      have hbelow := ih a ha hm (le_of_compileAt hm)
      omega
    omega

theorem compileAt_literalsWellFormed (h : compileAt maxDepth depth rule = .ok n)
    (hrule : rule.WellFormed) : n.LiteralsWellFormed := by
  induction rule using Rule.induction generalizing depth n with
  | literal v hv =>
    rw [compileAt_literal hv] at h
    obtain ⟨-, rfl⟩ := leaf_eq_ok.1 h
    exact Node.literalsWellFormed_literal.2 hrule
  | empty =>
    obtain ⟨-, rfl⟩ := leaf_eq_ok.1 h
    intro b v hv
    cases hv
  | operation name v others ih =>
    obtain ⟨op, args, -, -, hall, rfl⟩ := compileAt_operation_eq_ok h
    rw [Node.literalsWellFormed_iff (Node.operator?_assemble op args), Node.children_assemble]
    intro m hm
    obtain ⟨a, ha, hm⟩ := hall.exists_of_mem_right m hm
    have hv : v.WellFormed := (Json.wellFormed_obj.1 hrule).2 (name, v) List.mem_cons_self
    refine ih a ha hm ?_
    unfold arguments at ha
    split at ha
    · exact Json.wellFormed_arr.1 hv a ha
    · exact List.mem_singleton.1 ha ▸ hv

/-! ### The trees that compile to themselves -/

theorem compileAll_rules {args : List Node}
    (h : ∀ n ∈ args, compileAt maxDepth depth n.rule = .ok n) :
    compileAll maxDepth depth (args.map Node.rule) = .ok args := by
  induction args with
  | nil => rfl
  | cons n rest ih =>
    rw [List.map_cons, compileAll, h n List.mem_cons_self,
      ih fun m hm => h m (List.mem_cons_of_mem n hm)]
    rfl

/-- A well-formed tree is the tree of the rule that it is written as, if there is room below. -/
theorem compileAt_rule (h : n.WellFormed) (hheight : depth + n.height ≤ maxDepth) :
    compileAt maxDepth depth n.rule = .ok n := by
  induction n using Node.children_induction generalizing depth with
  | literal v =>
    rw [Node.rule, compileAt_literal h]
    exact leaf_eq_ok.2 ⟨Nat.le_of_add_right_le hheight, rfl⟩
  | empty => exact leaf_eq_ok.2 ⟨Nat.le_of_add_right_le hheight, rfl⟩
  | operator n op hop ih =>
    have hbelow := Node.height_le_iff.1 (Nat.le_refl n.height)
    have hoperator : operatorAt maxDepth depth op.name n.children.length = .ok op :=
      operatorAt_eq_ok.2
        ⟨Nat.le_of_add_right_le hheight, op.ofName?_name, h.accepts hop⟩
    have hchildren : compileAll maxDepth (depth + 1) (n.children.map Node.rule) = .ok n.children :=
      compileAll_rules fun m hm => ih m hm (h.of_mem_children hm) (by
        have := hbelow m hm
        omega)
    rw [Node.rule_of_operator? hop, compileAt_operation, arguments, List.length_map, hoperator]
    exact Result.bind_eq_ok.2 ⟨op, rfl, Result.bind_eq_ok.2 ⟨_, hchildren, by
      rw [h.assemble_children hop]
      rfl⟩⟩

/-- The trees of rules are the well-formed trees whose height keeps to the limit. Of rules that
documents can hold they are those whose literals documents can hold. To evaluate one, no more nodes
are ever under evaluation at a time than the limit and one. -/
theorem exists_compile_iff (maxDepth : Nat) (tree : Node) :
    ((∃ rule, compile maxDepth rule = .ok tree) ↔ tree.WellFormed ∧ tree.height ≤ maxDepth) ∧
    ((∃ rule, rule.WellFormed ∧ compile maxDepth rule = .ok tree) ↔
      tree.WellFormed ∧ tree.height ≤ maxDepth ∧ tree.LiteralsWellFormed) ∧
    ((∃ rule, compile maxDepth rule = .ok tree) → ∀ beyond data,
      tree.evaluateWithin beyond (maxDepth + 1) data = tree.evaluate data) := by
  have hheight : ∀ {rule}, compile maxDepth rule = .ok tree → tree.height ≤ maxDepth := fun h =>
    Nat.zero_add tree.height ▸ compileAt_height h
  have hself : tree.WellFormed → tree.height ≤ maxDepth → compile maxDepth tree.rule = .ok tree :=
    fun hwf hle => compileAt_rule hwf (by omega)
  refine ⟨⟨?_, ?_⟩, ⟨?_, ?_⟩, ?_⟩
  · rintro ⟨rule, h⟩
    exact ⟨compile_wellFormed h, hheight h⟩
  · rintro ⟨hwf, hle⟩
    exact ⟨tree.rule, hself hwf hle⟩
  · rintro ⟨rule, hrule, h⟩
    exact ⟨compile_wellFormed h, hheight h, compileAt_literalsWellFormed h hrule⟩
  · rintro ⟨hwf, hle, hliterals⟩
    exact ⟨tree.rule, hliterals.rule, hself hwf hle⟩
  · rintro ⟨rule, h⟩ beyond data
    exact Node.evaluateWithin_of_height_lt beyond (Nat.lt_succ_of_le (hheight h)) data

theorem exists_compile_iff_reduce :
    let tree : Node := .iteration .reduce (.operation .var [.literal (.str "items")])
      (.operation .add [.operation .var [.literal (.str "current")],
        .operation .var [.literal (.str "accumulator")]]) (some .empty)
    tree.height = 3 ∧ (∃ rule, rule.WellFormed ∧ compile 3 rule = .ok tree) ∧
    (¬ ∃ rule, compile 2 rule = .ok tree) ∧
    ∀ beyond data, tree.evaluateWithin beyond 4 data = tree.evaluate data := by
  intro tree
  have hheight : tree.height = 3 := rfl
  have hle : tree.height ≤ 3 := Nat.le_of_eq hheight
  have hwf : tree.WellFormed := by
    simp [tree, Node.WellFormed, Node.AllWellFormed, Operator.isIteration, Operator.arity,
      Arity.accepts, Json.kind]
  have hliterals : tree.LiteralsWellFormed := by
    intro b v h
    simp [tree, Node.holds_iteration, Node.holds_operation, Node.holds_literal, Node.holds_empty] at h
    rcases h with ⟨-, rfl⟩ | ⟨-, rfl | rfl⟩ <;> trivial
  obtain ⟨hall, hdocuments, hnesting⟩ := exists_compile_iff 3 tree
  refine ⟨hheight, hdocuments.2 ⟨hwf, hle, hliterals⟩, fun h => ?_, hnesting (hall.2 ⟨hwf, hle⟩)⟩
  have hle' := ((exists_compile_iff 2 tree).1.1 h).2
  rw [hheight] at hle'
  omega

end Rule
end JsonRules
