import JsonRules.Proofs.List
import JsonRules.Proofs.Rule.References
import JsonRules.Rule.Compile

/-!
# What compiling collects

Collecting goes along with compiling: it makes the same tree (`tree_collectAt`), and what it has collected
afterwards is what there was before and the references of that tree (`has_collectAt`). So the sets collected
on the way are those read off the finished tree (`collect_eq`).

The references of a tree, which its recursion puts together from those of the parts, are those of the
operations that stand in it (`mem_references_iff`). By this compiling lists a path just if a variable
outside of all predicates has it for its first argument, and a function just if a call anywhere has
(`collect_places`).
-/

namespace JsonRules

/-! ## Compiling and collecting -/

namespace Collected

/-- Something has been collected. -/
def Has (c : Collected) : Reference → Prop
  | .path p => p ∈ c.paths
  | .function f => f ∈ c.functions

variable {c : Collected} {x : Reference}

theorem not_has_empty : ¬({} : Collected).Has x := by
  cases x <;> exact Std.TreeSet.not_mem_emptyc

theorem has_add {r : Option Reference} : (c.add r).Has x ↔ c.Has x ∨ r = some x := by
  rcases r with _ | ⟨p | f⟩ <;> cases x <;> simp [add, Has, or_comm]

end Collected

namespace Rule

variable {maxDepth depth : Nat} {inPredicate : Bool} {c c' : Collected} {v : Json} {x : Reference}
  {inside : Nat → Bool} {op : Operator} {args : List Node}

/-! ### Collecting by arguments -/

theorem collectAt_literal (h : v.kind ≠ .object) :
    collectAt maxDepth depth inPredicate c v = do return (← leaf maxDepth depth (.literal v), c) := by
  cases v with
  | obj fields => exact absurd rfl h
  | _ => rfl

theorem collectAll_single :
    collectAll maxDepth depth inside c [v] = do
      let (n, c) ← collectAt maxDepth depth (inside 0) c v
      return ([n], c) := by
  rw [collectAll]
  cases collectAt maxDepth depth (inside 0) c v <;> rfl

theorem collectAt_operation {name : String} {others : List (String × Json)} :
    collectAt maxDepth depth inPredicate c (.obj ((name, v) :: others)) = do
      let op ← operatorAt maxDepth depth name (arguments v).length
      let (args, c) ← collectAll maxDepth (depth + 1) (insides op inPredicate) c (arguments v)
      return (assemble op args, c.add (Node.reference? inPredicate op args)) := by
  by_cases hv : ∃ items, v = .arr items
  · obtain ⟨items, rfl⟩ := hv
    rfl
  · rw [not_exists] at hv
    rw [collectAt, arguments_single hv, List.length_singleton]
    · simp only [collectAll_single, bind_assoc, pure_bind]
    · exact hv

/-! ### The tree -/

theorem trees_collectAll {items : List Json}
    (h : ∀ a ∈ items, ∀ inPredicate c,
      Prod.fst <$> collectAt maxDepth depth inPredicate c a = compileAt maxDepth depth a) :
    Prod.fst <$> collectAll maxDepth depth inside c items = compileAll maxDepth depth items := by
  induction items generalizing inside c with
  | nil => rfl
  | cons a rest ih =>
    rw [collectAll, compileAll, ← h a List.mem_cons_self (inside 0) c, map_bind, bind_map_left]
    refine bind_congr fun r => ?_
    have hrest : Prod.fst <$> collectAll maxDepth depth (fun i => inside (i + 1)) r.2 rest =
        compileAll maxDepth depth rest :=
      ih fun b hb => h b (List.mem_cons_of_mem a hb)
    rw [← hrest, map_bind, bind_map_left]
    simp only [map_pure]

/-- The tree is the one that compiling makes. -/
theorem tree_collectAt (rule : Json) :
    Prod.fst <$> collectAt maxDepth depth inPredicate c rule = compileAt maxDepth depth rule := by
  induction rule using Rule.induction generalizing depth inPredicate c with
  | literal v hv =>
    rw [collectAt_literal hv, compileAt_literal hv, map_bind]
    simp only [map_pure, bind_pure]
  | empty =>
    rw [collectAt, compileAt, map_bind]
    simp only [map_pure, bind_pure]
  | operation name v others ih =>
    rw [collectAt_operation, compileAt_operation, map_bind]
    refine bind_congr fun op => ?_
    have hargs : Prod.fst <$> collectAll maxDepth (depth + 1) (insides op inPredicate) c (arguments v) =
        compileAll maxDepth (depth + 1) (arguments v) :=
      trees_collectAll fun a ha inPredicate c => ih a ha
    rw [← hargs, map_bind, bind_map_left]
    simp only [map_pure]

/-! ### What is named -/

theorem reference?_of_isIteration (h : op.isIteration = true) :
    Node.reference? inPredicate op args = none := by
  cases op <;> first | rfl | cases h

/-- The references of a tree are those of the arguments that it is made of, and the one of its root. -/
theorem mem_references_assemble (h : op.arity.accepts args.length = true) :
    x ∈ (assemble op args).references inPredicate ↔
      (∃ i n, args[i]? = some n ∧ x ∈ Node.references (insides op inPredicate i) n) ∨
        Node.reference? inPredicate op args = some x := by
  have hfirst : insides op inPredicate 0 = inPredicate := by simp [insides]
  rcases assemble_cases h with ⟨hop, he⟩ | ⟨s, p, rfl, hop, he⟩ | ⟨s, p, i, rfl, rfl, he⟩ <;> rw [he]
  · have hinside : ∀ i, insides op inPredicate i = inPredicate := by simp [insides, hop]
    simp only [hinside]
    rw [Node.mem_references_operation, or_comm]
    refine or_congr_left ⟨?_, ?_⟩
    · rintro ⟨n, hn, hx⟩
      obtain ⟨i, hi⟩ := List.mem_iff_getElem?.1 hn
      exact ⟨i, n, hi, hx⟩
    · rintro ⟨i, n, hi, hx⟩
      exact ⟨n, List.mem_of_getElem? hi, hx⟩
  · have hsecond : insides op inPredicate 1 = true := by simp [insides, hop]
    simp [Node.mem_references_iteration, List.exists_getElem?_cons, reference?_of_isIteration hop, hfirst, hsecond]
  · have hop : Operator.reduce.isIteration = true := rfl
    have hsecond : insides .reduce inPredicate 1 = true := by simp [insides, hop]
    have hthird : insides .reduce inPredicate 2 = inPredicate := by simp [insides]
    simp [Node.mem_references_iteration, List.exists_getElem?_cons, reference?_of_isIteration hop, hfirst, hsecond,
      hthird]

theorem has_collectAll {items : List Json}
    (h : ∀ a ∈ items, ∀ {inPredicate c n c'}, collectAt maxDepth depth inPredicate c a = .ok (n, c') →
      ∀ x, c'.Has x ↔ c.Has x ∨ x ∈ n.references inPredicate)
    (hitems : collectAll maxDepth depth inside c items = .ok (args, c')) :
    c'.Has x ↔ c.Has x ∨ ∃ i n, args[i]? = some n ∧ x ∈ Node.references (inside i) n := by
  induction items generalizing inside c args with
  | nil =>
    cases hitems
    simp
  | cons a rest ih =>
    obtain ⟨⟨n, c₁⟩, hn, hrest⟩ := Result.bind_eq_ok.1 hitems
    obtain ⟨⟨ns, c₂⟩, hns, hall⟩ := Result.bind_eq_ok.1 hrest
    cases hall
    rw [ih (fun b hb => h b (List.mem_cons_of_mem a hb)) hns, h a List.mem_cons_self hn x,
      List.exists_getElem?_cons, or_assoc]

/-- Afterwards there is what there was before, and the references of the tree. -/
theorem has_collectAt {rule : Json} {n : Node}
    (h : collectAt maxDepth depth inPredicate c rule = .ok (n, c')) (x : Reference) :
    c'.Has x ↔ c.Has x ∨ x ∈ n.references inPredicate := by
  induction rule using Rule.induction generalizing depth inPredicate c n c' x with
  | literal v hv =>
    rw [collectAt_literal hv] at h
    obtain ⟨m, hm, h⟩ := Result.bind_eq_ok.1 h
    cases h
    obtain ⟨-, rfl⟩ := leaf_eq_ok.1 hm
    simp [Node.references]
  | empty =>
    obtain ⟨m, hm, h⟩ := Result.bind_eq_ok.1 h
    cases h
    obtain ⟨-, rfl⟩ := leaf_eq_ok.1 hm
    simp [Node.references]
  | operation name v others ih =>
    rw [collectAt_operation] at h
    obtain ⟨op, hop, h⟩ := Result.bind_eq_ok.1 h
    obtain ⟨⟨args, c₁⟩, hargs, h⟩ := Result.bind_eq_ok.1 h
    cases h
    have htrees : compileAll maxDepth (depth + 1) (arguments v) = .ok args := by
      rw [← trees_collectAll fun a _ _ _ => tree_collectAt a, hargs]
      rfl
    have hcount : op.arity.accepts args.length = true :=
      (compileAll_eq_ok htrees).length_eq ▸ (operatorAt_eq_ok.1 hop).2.2
    -- collected last, listed first by the tree: the two agree on members and not on their order
    rw [Collected.has_add, has_collectAll (fun a ha => ih a ha) hargs, mem_references_assemble hcount,
      or_assoc]

/-! ### The whole rule -/

/-- What is collected on the way is what the finished tree names. -/
theorem collect_eq (maxDepth : Nat) (rule : Json) :
    collect maxDepth rule =
      (fun tree => ⟨tree, tree.paths.toList, tree.functions.toList⟩) <$> compile maxDepth rule := by
  have htree : Prod.fst <$> collectAt maxDepth 0 false {} rule = compile maxDepth rule :=
    tree_collectAt rule
  rw [collect, ← htree]
  cases hrule : collectAt maxDepth 0 false {} rule with
  | error e => rfl
  | ok r =>
    obtain ⟨n, c⟩ := r
    have hhas (x : Reference) : c.Has x ↔ x ∈ n.references false := by
      rw [has_collectAt hrule x, or_iff_right Collected.not_has_empty]
    have hpaths : c.paths.toList = n.paths.toList :=
      Std.TreeSet.toList_eq_of_mem_iff fun p => (hhas (.path p)).trans Node.mem_paths.symm
    have hfunctions : c.functions.toList = n.functions.toList :=
      Std.TreeSet.toList_eq_of_mem_iff fun f => (hhas (.function f)).trans Node.mem_functions.symm
    exact congrArg₂ (fun paths functions => Except.ok (Compiled.mk n paths functions)) hpaths hfunctions

theorem collect_of_compile {rule : Json} {tree : Node} (h : compile maxDepth rule = .ok tree) :
    collect maxDepth rule = .ok ⟨tree, tree.paths.toList, tree.functions.toList⟩ := by
  rw [collect_eq, h]
  rfl

theorem collect_eq_error {rule : Json} {err : RuleError} :
    collect maxDepth rule = .error err ↔ compile maxDepth rule = .error err := by
  rw [collect_eq, Result.map_eq_error]

end Rule

/-! ## Where a tree names what it refers to -/

namespace Node

variable {n : Node} {inPredicate : Bool} {op : Operator} {args : List Node} {x : Reference}

/-! ### What an operation refers to -/

theorem reference?_eq_path {p : String} :
    reference? inPredicate op args = some (.path p) ↔
      inPredicate = false ∧ op = .var ∧ p ≠ "" ∧ ∃ rest, args = .literal (.str p) :: rest := by
  constructor
  · intro h
    unfold reference? at h
    split at h
    · rename_i q rest
      by_cases hq : (inPredicate || q.isEmpty) = true
      · rw [if_pos hq] at h
        cases h
      · rw [if_neg hq] at h
        cases h
        simp at hq
        exact ⟨hq.1, rfl, hq.2, rest, rfl⟩
    · cases h
    · cases h
  · rintro ⟨rfl, rfl, hp, rest, rfl⟩
    simp [reference?, hp]

theorem reference?_eq_function {f : String} :
    reference? inPredicate op args = some (.function f) ↔
      op = .apply ∧ ∃ rest, args = .literal (.str f) :: rest := by
  constructor
  · intro h
    unfold reference? at h
    split at h
    · split at h
      · cases h
      · cases h
    · cases h
      exact ⟨rfl, _, rfl⟩
    · cases h
  · rintro ⟨rfl, rest, rfl⟩
    rfl

/-! ### The operations of a tree -/

/-- The references of a tree are those of its operations, wherever they stand. -/
theorem mem_references_iff : x ∈ n.references inPredicate ↔
    ∃ b op args, n.Holds b (.operation op args) ∧ reference? (inPredicate || b) op args = some x := by
  -- the flag is general: a predicate lists its references as those of a place inside one
  induction n using Node.induction generalizing inPredicate with
  | literal v => simp [references, holds_literal]
  | empty => simp [references, holds_empty]
  | operation op args ih =>
    rw [mem_references_operation]
    constructor
    · rintro (hx | ⟨m, hm, hx⟩)
      · exact ⟨false, op, args, .self _, by rwa [Bool.or_false]⟩
      · obtain ⟨b, op', args', hholds, hx⟩ := (ih m hm).1 hx
        exact ⟨b, op', args', .arg hm hholds, hx⟩
    · rintro ⟨b, op', args', hholds, hx⟩
      rcases holds_operation.1 hholds with ⟨rfl, heq⟩ | ⟨m, hm, hholds⟩
      · cases heq
        rw [Bool.or_false] at hx
        exact .inl hx
      · exact .inr ⟨m, hm, (ih m hm).2 ⟨b, op', args', hholds, hx⟩⟩
  | iteration op source predicate initial ihs ihp ihi =>
    rw [mem_references_iteration]
    constructor
    · rintro (hx | hx | ⟨m, hm, hx⟩)
      · obtain ⟨b, op', args', hholds, hx⟩ := ihs.1 hx
        exact ⟨b, op', args', .source hholds, hx⟩
      · obtain ⟨b, op', args', hholds, hx⟩ := ihp.1 hx
        rw [Bool.true_or] at hx
        exact ⟨true, op', args', .predicate hholds, by rwa [Bool.or_true]⟩
      · obtain ⟨b, op', args', hholds, hx⟩ := (ihi m hm).1 hx
        cases hm
        exact ⟨b, op', args', .initial hholds, hx⟩
    · rintro ⟨b, op', args', hholds, hx⟩
      rcases holds_iteration.1 hholds with ⟨-, heq⟩ | hholds | ⟨rfl, c, hholds⟩ | ⟨m, hm, hholds⟩
      · cases heq
      · exact .inl (ihs.2 ⟨b, op', args', hholds, hx⟩)
      · rw [Bool.or_true] at hx
        exact .inr (.inl (ihp.2 ⟨c, op', args', hholds, by rwa [Bool.true_or]⟩))
      · exact .inr (.inr ⟨m, hm, (ihi m hm).2 ⟨b, op', args', hholds, hx⟩⟩)

theorem mem_paths_iff {p : String} : p ∈ n.paths ↔
    p ≠ "" ∧ ∃ rest, n.Holds false (.operation .var (.literal (.str p) :: rest)) := by
  rw [mem_paths, mem_references_iff]
  constructor
  · rintro ⟨b, op, args, hholds, hx⟩
    rw [Bool.false_or] at hx
    obtain ⟨rfl, rfl, hp, rest, rfl⟩ := reference?_eq_path.1 hx
    exact ⟨hp, rest, hholds⟩
  · rintro ⟨hp, rest, hholds⟩
    exact ⟨false, .var, _, hholds, reference?_eq_path.2 ⟨rfl, rfl, hp, rest, rfl⟩⟩

theorem mem_functions_iff {f : String} : f ∈ n.functions ↔
    ∃ b rest, n.Holds b (.operation .apply (.literal (.str f) :: rest)) := by
  rw [mem_functions, mem_references_iff]
  constructor
  · rintro ⟨b, op, args, hholds, hx⟩
    obtain ⟨rfl, rest, rfl⟩ := reference?_eq_function.1 hx
    exact ⟨b, rest, hholds⟩
  · rintro ⟨b, rest, hholds⟩
    exact ⟨b, .apply, _, hholds, reference?_eq_function.2 ⟨rfl, rest, rfl⟩⟩

end Node

namespace Rule

open Node (Holds)

/-- A rule that compiles lists a path if and only if outside of all predicates of its tree a variable has it
for a literal first argument, the empty path excepted, and a function if and only if a call in the tree has,
inside a predicate or not. Each is listed once, in ascending order. -/
theorem collect_places {maxDepth : Nat} {rule : Json} {tree : Node} (h : compile maxDepth rule = .ok tree) :
    ∃ c, collect maxDepth rule = .ok c ∧ c.tree = tree ∧
      (∀ p, p ∈ c.paths ↔
        p ≠ "" ∧ ∃ rest, tree.Holds false (.operation .var (.literal (.str p) :: rest))) ∧
      (∀ f, f ∈ c.functions ↔
        ∃ inPredicate rest, tree.Holds inPredicate (.operation .apply (.literal (.str f) :: rest))) ∧
      c.paths.Pairwise (· < ·) ∧ c.functions.Pairwise (· < ·) := by
  refine ⟨_, collect_of_compile h, rfl, fun p => ?_, fun f => ?_, Std.TreeSet.pairwise_lt_toList _,
    Std.TreeSet.pairwise_lt_toList _⟩
  · rw [← Node.mem_paths_iff]
    exact Std.TreeSet.mem_toList
  · rw [← Node.mem_functions_iff]
    exact Std.TreeSet.mem_toList

/-- In the predicate of a reduction stands another iteration: the variable in its source is one of an item
and not listed, the function in its predicate is. -/
theorem collect_places_reduce :
    let rule : Json := .obj [("reduce", .arr [.obj [("var", .arr [.str "orders", .obj [("var", .str "spare")]])],
      .obj [("filter", .arr [.obj [("var", .str "items")],
        .obj [("apply", .arr [.str "keep", .obj [("var", .str "")]])]])],
      .obj [("var", .str "first.total")]])]
    let look (path : String) : Node := .operation .var [.literal (.str path)]
    let tree : Node := .iteration .reduce (.operation .var [.literal (.str "orders"), look "spare"])
      (.iteration .filter (look "items") (.operation .apply [.literal (.str "keep"), look ""]) none)
      (some (look "first.total"))
    compile 256 rule = .ok tree ∧ ∃ c, collect 256 rule = .ok c ∧
      "orders" ∈ c.paths ∧ "spare" ∈ c.paths ∧ "first.total" ∈ c.paths ∧ "items" ∉ c.paths ∧
      "keep" ∈ c.functions := by
  intro rule look tree
  have htree : compile 256 rule = .ok tree := rfl
  obtain ⟨c, hc, -, hpaths, hfunctions, -⟩ := collect_places htree
  have horders : tree.Holds false (.operation .var [.literal (.str "orders"), look "spare"]) :=
    .source (.self _)
  have hspare : tree.Holds false (look "spare") := .source (.arg (by simp) (.self _))
  have hfirst : tree.Holds false (look "first.total") := .initial (.self _)
  have hkeep : tree.Holds true (.operation .apply [.literal (.str "keep"), look ""]) :=
    .predicate (.predicate (.self _))
  have hitems : ∀ rest, ¬tree.Holds false (.operation .var (.literal (.str "items") :: rest)) := by
    intro rest hholds
    simp [tree, look, Node.holds_iteration, Node.holds_operation, Node.holds_literal] at hholds
  refine ⟨htree, c, hc, (hpaths _).2 ⟨by decide, _, horders⟩, (hpaths _).2 ⟨by decide, _, hspare⟩,
    (hpaths _).2 ⟨by decide, _, hfirst⟩, fun h => ?_, (hfunctions _).2 ⟨_, _, hkeep⟩⟩
  obtain ⟨-, rest, hholds⟩ := (hpaths _).1 h
  exact hitems rest hholds

end Rule
end JsonRules
