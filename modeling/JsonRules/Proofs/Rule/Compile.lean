import JsonRules.Host.Stock
import JsonRules.Proofs.List
import JsonRules.Rule.Interpret
import JsonRules.Rule.Position
import JsonRules.Rule.Tree

/-!
# Compiling keeps the meaning of a rule

Under the operator of a rule stands a list of arguments or a single one, and the meaning of a rule
does not tell the two apart. `Rule.arguments` is the list in both cases; `Rule.induction`,
`compileAt_operation` and `interpret_operation` have one case where the definitions have two.
`Node.induction` is the same for trees: it reaches predicates and initial values too.

An operation that compiles has an operator that takes the number of its arguments, and its tree is
put together from theirs (`compileAt_operation_eq_ok`, `assemble_cases`). By induction over the rule,
every tree is well-formed (`compile_wellFormed`).

`Rule.interpret` goes through a rule as it stands, `Node.evaluate` through its tree. For a rule that
compiles the two are one program (`evaluate_of_compileAt`), so no host can tell them apart:
`run_eq_interpret` says so for runs in both modes.
-/

namespace JsonRules

/-! ## Rules by their arguments -/

/-- To show something of all trees, show it of each from its arguments or parts. -/
theorem Node.induction {motive : Node → Prop} (literal : ∀ v, motive (.literal v))
    (empty : motive .empty)
    (operation : ∀ op args, (∀ n ∈ args, motive n) → motive (.operation op args))
    (iteration : ∀ op source predicate initial, motive source → motive predicate →
      (∀ n ∈ initial, motive n) → motive (.iteration op source predicate initial)) (n : Node) :
    motive n := by
  refine Node.rec (motive_1 := motive) (motive_2 := fun args => ∀ n ∈ args, motive n)
    (motive_3 := fun initial => ∀ n ∈ initial, motive n) literal empty operation
    iteration ?_ ?_ ?_ ?_ n
  · simp
  · intro n rest hn hrest m hm
    rcases List.mem_cons.1 hm with rfl | hm
    · exact hn
    · exact hrest m hm
  · simp
  · rintro n hn m ⟨⟩
    exact hn

namespace Rule

/-- The arguments that an operator has from what stands under it. -/
def arguments : Json → List Json
  | .arr items => items
  | v => [v]

theorem arguments_arr (items : List Json) : arguments (.arr items) = items := rfl

theorem arguments_single {v : Json} (h : ∀ items, v = .arr items → False) : arguments v = [v] := by
  cases v with
  | arr items => exact absurd rfl (h items)
  | _ => rfl

/-- To show something of all rules, show it of each from its arguments. -/
theorem induction {motive : Json → Prop} (literal : ∀ v : Json, v.kind ≠ .object → motive v)
    (empty : motive (.obj []))
    (operation : ∀ name v others, (∀ a ∈ arguments v, motive a) →
      motive (.obj ((name, v) :: others))) (rule : Json) : motive rule := by
  refine (normal.mutual_induct motive (fun items => ∀ a ∈ items, motive a)
    empty ?_ ?_ ?_ ?_ ?_).1 rule
  · exact fun name items others h => operation name (.arr items) others h
  · intro name v others hv h
    refine operation name v others fun a ha => ?_
    rw [arguments_single hv, List.mem_singleton] at ha
    exact ha ▸ h
  · intro v h0 _ h1
    refine literal v fun hk => ?_
    match v with
    | .obj [] => exact h0 rfl
    | .obj ((name, w) :: others) => exact h1 name w others rfl
  · simp
  · intro v rest hv hrest a ha
    rcases List.mem_cons.1 ha with rfl | ha
    · exact hv
    · exact hrest a ha

variable {maxDepth depth : Nat} {name : String} {v : Json} {others : List (String × Json)}

theorem compileAt_literal (h : v.kind ≠ .object) :
    compileAt maxDepth depth v = leaf maxDepth depth (.literal v) := by
  cases v with
  | obj fields => exact absurd rfl h
  | _ => rfl

theorem compileAll_single :
    compileAll maxDepth depth [v] = return [← compileAt maxDepth depth v] := by
  rw [compileAll]
  cases compileAt maxDepth depth v <;> rfl

theorem compileAt_operation :
    compileAt maxDepth depth (.obj ((name, v) :: others)) = do
      let op ← operatorAt maxDepth depth name (arguments v).length
      return assemble op (← compileAll maxDepth (depth + 1) (arguments v)) := by
  by_cases hv : ∃ items, v = .arr items
  · obtain ⟨items, rfl⟩ := hv
    rfl
  · rw [not_exists] at hv
    rw [compileAt, arguments_single hv, compileAll_single, List.length_singleton]
    · cases operatorAt maxDepth depth name 1 with
      | error e => rfl
      | ok op => cases compileAt maxDepth (depth + 1) v <;> rfl
    · exact hv

theorem interpret_literal {data : Json} (h : v.kind ≠ .object) : interpret data v = .done v := by
  cases v with
  | obj fields => exact absurd rfl h
  | _ => rfl

theorem interpret_operation {data : Json} :
    interpret data (.obj ((name, v) :: others)) =
      match Operator.ofName? name with
      | none => .fail (.unknownOperator name)
      | some op =>
        if op.isIteration then interpretIteration data op (arguments v)
        else (interpretAll data (arguments v)).bind fun operands =>
          .note (.dispatch op operands.length) (op.perform operands data) := by
  by_cases hv : ∃ items, v = .arr items
  · obtain ⟨items, rfl⟩ := hv
    rfl
  · rw [not_exists] at hv
    rw [interpret, arguments_single hv]
    · cases Operator.ofName? name with
      | none => rfl
      | some op =>
        by_cases hop : op.isIteration
        · simp only [hop, ite_true, interpretIteration, List.length_singleton]
        · simp only [hop, interpretAll, Program.bind_eq, Program.bind_assoc]
          rfl
    · exact hv

end Rule

/-! ## Trees of rules that compile -/

/-- An iteration takes a source and a predicate, and only a reduction a third argument. -/
theorem Operator.count_of_isIteration {op : Operator} {count : Nat} (hop : op.isIteration = true)
    (h : op.arity.accepts count = true) : count = 2 ∨ op = .reduce ∧ count = 3 := by
  cases op <;> simp [isIteration] at hop <;> simp [arity, Arity.accepts] at h <;> simp <;> omega

namespace Rule

variable {maxDepth depth : Nat}

theorem operatorAt_eq_ok {name : String} {op : Operator} {count : Nat} :
    operatorAt maxDepth depth name count = .ok op ↔
      depth ≤ maxDepth ∧ Operator.ofName? name = some op ∧ op.arity.accepts count = true := by
  unfold operatorAt
  by_cases hd : maxDepth < depth
  · simp only [hd, ite_true, reduceCtorEq, false_iff]
    exact fun h => absurd h.1 (Nat.not_le.2 hd)
  · simp only [hd, ite_false, Nat.not_lt.1 hd, true_and]
    cases Operator.ofName? name with
    | none => simp
    | some op' =>
      by_cases ha : op'.arity.accepts count
      · simp only [ha, ite_true, Except.ok.injEq, Option.some.injEq]
        exact ⟨fun h => ⟨h, h ▸ ha⟩, And.left⟩
      · simp only [ha, ite_false, reduceCtorEq, false_iff, Option.some.injEq]
        rintro ⟨rfl, h⟩
        exact ha h

theorem leaf_eq_ok {n m : Node} : leaf maxDepth depth n = .ok m ↔ depth ≤ maxDepth ∧ m = n := by
  unfold leaf
  by_cases hd : maxDepth < depth
  · simp only [hd, ite_true, reduceCtorEq, false_iff]
    exact fun h => absurd h.1 (Nat.not_le.2 hd)
  · simp only [hd, ite_false, Nat.not_lt.1 hd, true_and, Except.ok.injEq]
    exact eq_comm

theorem compileAll_eq_ok {items : List Json} {args : List Node}
    (h : compileAll maxDepth depth items = .ok args) :
    List.Forall₂ (fun v n => compileAt maxDepth depth v = .ok n) items args := by
  induction items generalizing args with
  | nil =>
    cases h
    exact .nil
  | cons v rest ih =>
    obtain ⟨n, hn, h⟩ := Result.bind_eq_ok.1 h
    obtain ⟨ns, hns, h⟩ := Result.bind_eq_ok.1 h
    cases h
    exact .cons hn (ih hns)

/-- The tree of an operation that compiles. -/
theorem compileAt_operation_eq_ok {name : String} {v : Json} {others : List (String × Json)}
    {n : Node} (h : compileAt maxDepth depth (.obj ((name, v) :: others)) = .ok n) :
    ∃ op args, Operator.ofName? name = some op ∧ op.arity.accepts args.length = true ∧
      List.Forall₂ (fun a n => compileAt maxDepth (depth + 1) a = .ok n) (arguments v) args ∧
      n = assemble op args := by
  rw [compileAt_operation] at h
  obtain ⟨op, hop, h⟩ := Result.bind_eq_ok.1 h
  obtain ⟨args, hargs, h⟩ := Result.bind_eq_ok.1 h
  obtain ⟨-, hname, hcount⟩ := operatorAt_eq_ok.1 hop
  have hall := compileAll_eq_ok hargs
  cases h
  exact ⟨op, args, hname, hall.length_eq ▸ hcount, hall, rfl⟩

/-- The trees that `assemble` makes of as many arguments as the operator takes. -/
theorem assemble_cases {op : Operator} {args : List Node}
    (h : op.arity.accepts args.length = true) :
    op.isIteration = false ∧ assemble op args = .operation op args ∨
    (∃ source predicate, args = [source, predicate] ∧ op.isIteration = true ∧
      assemble op args = .iteration op source predicate none) ∨
    ∃ source predicate initial, args = [source, predicate, initial] ∧ op = .reduce ∧
      assemble op args = .iteration op source predicate (some initial) := by
  unfold assemble
  by_cases hop : op.isIteration
  · rcases Operator.count_of_isIteration hop h with hc | ⟨rfl, hc⟩
    · obtain ⟨source, predicate, rfl⟩ := List.length_eq_two.1 hc
      exact .inr (.inl ⟨source, predicate, rfl, hop, by simp [hop]⟩)
    · obtain ⟨source, predicate, initial, rfl⟩ := List.length_eq_three.1 hc
      exact .inr (.inr ⟨source, predicate, initial, rfl, rfl, by simp [hop]⟩)
  · exact .inl ⟨by simpa using hop, by simp [hop]⟩

end Rule

theorem Node.allWellFormed_iff {args : List Node} :
    AllWellFormed args ↔ ∀ n ∈ args, n.WellFormed := by
  induction args with
  | nil => simp [AllWellFormed]
  | cons n rest ih => simp [AllWellFormed, ih]

namespace Rule

theorem assemble_wellFormed {op : Operator} {args : List Node}
    (h : op.arity.accepts args.length = true) (hargs : ∀ n ∈ args, n.WellFormed) :
    (assemble op args).WellFormed := by
  rcases assemble_cases h with ⟨hop, he⟩ | ⟨s, p, rfl, hop, he⟩ | ⟨s, p, i, rfl, rfl, he⟩ <;> rw [he]
  · exact ⟨hop, h, Node.allWellFormed_iff.2 hargs⟩
  · exact ⟨hop, hargs s (by simp), hargs p (by simp)⟩
  · exact ⟨rfl, hargs s (by simp), hargs p (by simp), hargs i (by simp)⟩

theorem compileAt_wellFormed {maxDepth depth : Nat} {rule : Json} {n : Node}
    (h : compileAt maxDepth depth rule = .ok n) : n.WellFormed := by
  induction rule using Rule.induction generalizing depth n with
  | literal v hv =>
    rw [compileAt_literal hv] at h
    obtain ⟨-, rfl⟩ := leaf_eq_ok.1 h
    exact hv
  | empty =>
    obtain ⟨-, rfl⟩ := leaf_eq_ok.1 h
    trivial
  | operation name v others ih =>
    obtain ⟨op, args, -, hcount, hall, rfl⟩ := compileAt_operation_eq_ok h
    refine assemble_wellFormed hcount fun n hn => ?_
    obtain ⟨a, ha, hn⟩ := hall.exists_of_mem_right n hn
    exact ih a ha hn

/-- The tree of a rule is well-formed. -/
theorem compile_wellFormed {maxDepth : Nat} {rule : Json} {tree : Node}
    (h : compile maxDepth rule = .ok tree) : tree.WellFormed :=
  compileAt_wellFormed h

end Rule

/-! ## The meaning of a rule and of its tree -/

namespace Rule

variable {maxDepth depth : Nat}

theorem evaluateAll_eq_interpretAll {items : List Json} {args : List Node} {data : Json}
    (h : List.Forall₂ (fun v n => Node.evaluate n data = interpret data v) items args) :
    Node.evaluateAll args data = interpretAll data items := by
  induction h with
  | nil => rfl
  | cons hv _ ih => rw [Node.evaluateAll, interpretAll, hv, ih]

/-- The tree of a rule is the same program as the rule itself. -/
theorem evaluate_of_compileAt {rule : Json} {n : Node} (h : compileAt maxDepth depth rule = .ok n)
    (data : Json) : n.evaluate data = interpret data rule := by
  -- general in the data: a predicate is evaluated on other data than its iteration
  induction rule using Rule.induction generalizing depth n data with
  | literal v hv =>
    rw [compileAt_literal hv] at h
    obtain ⟨-, rfl⟩ := leaf_eq_ok.1 h
    rw [interpret_literal hv, Node.evaluate]
  | empty =>
    obtain ⟨-, rfl⟩ := leaf_eq_ok.1 h
    rfl
  | operation name v others ih =>
    obtain ⟨op, args, hname, hcount, hall, rfl⟩ := compileAt_operation_eq_ok h
    have heval : List.Forall₂ (fun a n => ∀ data, Node.evaluate n data = interpret data a)
        (arguments v) args :=
      ((List.forall₂_and_left _ _).2 ⟨ih, hall⟩).imp fun a n h => h.1 h.2
    rw [interpret_operation, hname]
    rcases assemble_cases hcount with ⟨hop, he⟩ | ⟨s, p, rfl, hop, he⟩ | ⟨s, p, i, rfl, rfl, he⟩
    · rw [he, Node.evaluate, evaluateAll_eq_interpretAll (heval.imp fun a n h => h data)]
      simp only [hop]
      rfl
    · generalize arguments v = items at heval
      obtain _ | ⟨hs, _ | ⟨hp, ⟨⟩⟩⟩ := heval
      rw [he, Node.evaluate, hs, funext hp]
      simp only [hop, ite_true, interpretIteration]
    · generalize arguments v = items at heval
      obtain _ | ⟨hs, _ | ⟨hp, _ | ⟨hi, ⟨⟩⟩⟩⟩ := heval
      rw [he, Node.evaluate, hs, hi, funext hp]
      rfl

/-- A rule that compiles runs as it is interpreted, in both modes and with every host. -/
theorem run_eq_interpret {σ : Type} (e : Engine) (mode : Mode) (r : Registry σ) {rule : Json}
    {tree : Node} (h : e.compile rule = .ok tree) (data : Json) (s : σ) :
    Engine.run mode r tree data s = (interpret data rule).run (r.host mode) s ∧
    e.evaluate mode r rule data s =
      (Program.noting (.start (.evaluate mode) :: notes e.maxDepth rule)
        (interpret data rule)).run (r.host mode) s := by
  have hrun := evaluate_of_compileAt h data
  refine ⟨by rw [Engine.run_eq, hrun], ?_⟩
  rw [Engine.evaluate_eq, Engine.program, h, ← hrun]
  rfl

theorem run_eq_interpret_map :
    let r : Registry Tally := Registry.empty.register "tick" ⟨.async 2, Stock.body (.counter 0)⟩
    let rule : Json := .obj [("map", .arr [.arr [.null, .bool true],
      .obj [("apply", .arr [.str "tick", .obj [("var", .str "")]])]])]
    ∃ tree, Engine.compile {} rule = .ok tree ∧
      Engine.run .async r tree .null [0] = (interpret .null rule).run (r.host .async) [0] := by
  intro r rule
  exact ⟨_, rfl, (run_eq_interpret {} .async r rfl .null [0]).1⟩

end Rule
end JsonRules
