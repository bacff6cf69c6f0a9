import JsonRules.Proofs.Rule.Compile
import JsonRules.Proofs.Run.Closed
import Std.Data.TreeSet.Lemmas

/-!
# What a tree refers to

The paths and functions of a tree are the references of its parts (`mem_paths`, `mem_functions`). Its
program depends on the data through the paths only (`evaluate_eq_of_paths`): outside of predicates
the data is read by variables, whose paths are listed, and a predicate never sees it. On all data it
calls the functions only (`evaluate_callsOnly`), those called by a predicate included.
-/

namespace JsonRules

namespace Node

variable {n : Node} {op : Operator} {args : List Node} {source predicate : Node}
  {initial : Option Node} {inPredicate : Bool} {x : Reference}

/-! ### References of a tree and of its parts -/

theorem mem_paths {path : String} : path ∈ n.paths ↔ .path path ∈ n.references false := by
  rw [paths, Std.TreeSet.mem_ofList, List.contains_iff_mem, List.mem_filterMap]
  constructor
  · rintro ⟨x, hx, h⟩
    cases x with
    | path p =>
      cases h
      exact hx
    | function f => cases h
  · exact fun h => ⟨_, h, rfl⟩

theorem mem_functions {name : String} :
    name ∈ n.functions ↔ .function name ∈ n.references false := by
  rw [functions, Std.TreeSet.mem_ofList, List.contains_iff_mem, List.mem_filterMap]
  constructor
  · rintro ⟨x, hx, h⟩
    cases x with
    | path p => cases h
    | function f =>
      cases h
      exact hx
  · exact fun h => ⟨_, h, rfl⟩

theorem mem_referencesOfArgs :
    x ∈ referencesOfArgs inPredicate args ↔ ∃ n ∈ args, x ∈ n.references inPredicate := by
  induction args with
  | nil => simp [referencesOfArgs]
  | cons n rest ih => simp [referencesOfArgs, ih]

theorem mem_references_operation :
    x ∈ (operation op args).references inPredicate ↔
      reference? inPredicate op args = some x ∨ ∃ n ∈ args, x ∈ n.references inPredicate := by
  rw [references, List.mem_append, Option.mem_toList, mem_referencesOfArgs]

theorem mem_references_iteration :
    x ∈ (iteration op source predicate initial).references inPredicate ↔
      x ∈ source.references inPredicate ∨ x ∈ predicate.references true ∨
        ∃ i ∈ initial, x ∈ i.references inPredicate := by
  cases initial <;> simp [references]

/-! ### Evaluation of arguments -/

theorem evaluateAll_congr {d d' : Json} (h : ∀ n ∈ args, n.evaluate d = n.evaluate d') :
    evaluateAll args d = evaluateAll args d' := by
  induction args with
  | nil => rfl
  | cons n rest ih =>
    rw [evaluateAll, evaluateAll, h n List.mem_cons_self,
      ih fun m hm => h m (List.mem_cons_of_mem n hm)]

theorem evaluate_operation_literal (op : Operator) (v : Json) (rest : List Node) (data : Json) :
    (operation op (.literal v :: rest)).evaluate data =
      (evaluateAll rest data).bind fun operands =>
        .note (.dispatch op (operands.length + 1)) (op.perform (v :: operands) data) := by
  simp only [evaluate, evaluateAll, Program.bind_eq, Program.bind, Program.pure_eq,
    Program.bind_assoc, List.length_cons]

end Node

/-! ### Dependence on the data -/

namespace Operator

theorem value?_data {op : Operator} (h : op ≠ .var) (operands : List Json) (d d' : Json) :
    op.value? d operands = op.value? d' operands := by
  unfold value?
  split <;> first | rfl | exact absurd rfl h

theorem perform_data {op : Operator} (h : op ≠ .var) (operands : List Json) (d d' : Json) :
    op.perform operands d = op.perform operands d' := by
  have hresult : op.result operands d = op.result operands d' := by
    rw [result, result, value?_data h operands d d']
  unfold perform
  split
  · rfl
  · rw [hresult]
  · rw [hresult]

theorem perform_var {d d' : Json} {path : String} (h : d.at? path = d'.at? path)
    (operands : List Json) :
    perform .var (.str path :: operands) d = perform .var (.str path :: operands) d' := by
  have hlookup : ∀ missing, lookup (.str path) missing d = lookup (.str path) missing d' := by
    intro missing
    show Except.ok (d.atOr path missing) = Except.ok (d'.atOr path missing)
    rw [Json.atOr, Json.atOr, h]
  have hvalue : value? d .var (.str path :: operands) = value? d' .var (.str path :: operands) := by
    match operands with
    | [] => exact hlookup .null
    | [missing] => exact hlookup missing
    | _ :: _ :: _ => rfl
  refine congrArg Program.ofResult ?_
  rw [result, result, hvalue]

end Operator

namespace Node

/-- A tree that names its variables is the same program on data that agree on their paths. -/
theorem evaluate_eq_of_paths {n : Node} {d d' : Json} (hnames : n.NamesVariables)
    (hpaths : ∀ path, .path path ∈ n.references false → d.at? path = d'.at? path) :
    n.evaluate d = n.evaluate d' := by
  induction n using Node.induction with
  | literal | empty => rfl
  | operation op args ih =>
    have hargs : ∀ n ∈ args, n.evaluate d = n.evaluate d' := fun n hn =>
      ih n hn (fun vs h => hnames vs (.arg hn h)) fun path h =>
        hpaths path (mem_references_operation.2 (.inr ⟨n, hn, h⟩))
    by_cases hop : op = .var
    · subst hop
      obtain ⟨path, rest, rfl, hne⟩ := hnames args (.self _)
      have hpath : d.at? path = d'.at? path :=
        hpaths path (mem_references_operation.2 (.inl (by simp [reference?, hne])))
      rw [evaluate_operation_literal, evaluate_operation_literal,
        evaluateAll_congr fun n hn => hargs n (List.mem_cons_of_mem _ hn)]
      simp only [Operator.perform_var hpath]
    · rw [evaluate, evaluate, evaluateAll_congr hargs]
      simp only [Operator.perform_data hop _ d d']
  | iteration op source predicate initial ihs _ ihi =>
    -- the predicate stays as it is: what it is evaluated on are the items of the source
    have hsource := ihs (fun args h => hnames args (.source h)) fun path h =>
      hpaths path (mem_references_iteration.2 (.inl h))
    cases initial with
    | none => rw [evaluate, evaluate, hsource]
    | some initial =>
      have hinitial := ihi initial rfl (fun args h => hnames args (.initial h)) fun path h =>
        hpaths path (mem_references_iteration.2 (.inr (.inr ⟨initial, rfl, h⟩)))
      rw [evaluate, evaluate, hsource, hinitial]

end Node

/-! ### Calls -/

variable {S : String → Prop}

namespace Operator

theorem perform_callsOnly {op : Operator} (h : op ≠ .apply) (operands : List Json) (data : Json) :
    (op.perform operands data).CallsOnly S := by
  unfold perform
  split
  · exact absurd rfl h
  · split <;> trivial
  · exact Program.callsOnly_ofResult _

theorem callHost_callsOnly {v : Json} (h : ∀ name, v = .str name → S name) (args : List Json) :
    (callHost (v :: args)).CallsOnly S := by
  cases v with
  | str name => exact ⟨h name rfl, fun _ => trivial⟩
  | _ => trivial

end Operator

namespace Node

section
variable {op : Operator} {args : List Node} {data : Json}

/-- A call of a literal function calls no other function than its operands do and this one. -/
theorem evaluate_apply_callsOnly {v : Json} (hv : ∀ name, v = .str name → S name) {rest : List Node}
    (hrest : ∀ n ∈ rest, (n.evaluate data).CallsOnly S) :
    ((operation .apply (.literal v :: rest)).evaluate data).CallsOnly S := by
  rw [evaluate_operation_literal]
  exact (Program.callsOnly_closed.evaluateAll hrest).bind (Operator.callHost_callsOnly hv)

theorem evaluate_operation_callsOnly (hop : op ≠ .apply)
    (hargs : ∀ n ∈ args, (n.evaluate data).CallsOnly S) :
    ((operation op args).evaluate data).CallsOnly S := by
  rw [evaluate]
  exact (Program.callsOnly_closed.evaluateAll hargs).bind fun operands =>
    Operator.perform_callsOnly hop operands data

end

/-- A tree that names its functions calls no others, whatever values come by. -/
theorem evaluate_callsOnly {n : Node} {inPredicate : Bool} (hwf : n.WellFormed)
    (hnames : n.NamesFunctions) (hS : ∀ name, .function name ∈ n.references inPredicate → S name)
    (data : Json) : (n.evaluate data).CallsOnly S := by
  -- the flag and the data are general: a predicate lists its functions too, and runs on other data
  induction n using Node.induction generalizing inPredicate data with
  | literal | empty => trivial
  | operation op args ih =>
    obtain ⟨-, -, hall⟩ := hwf
    have hargs : ∀ n ∈ args, (n.evaluate data).CallsOnly S := fun n hn =>
      ih n hn (allWellFormed_iff.1 hall n hn) (fun b first rest h => hnames b first rest (.arg hn h))
        (fun name h => hS name (mem_references_operation.2 (.inr ⟨n, hn, h⟩))) data
    by_cases hop : op = .apply
    · subst hop
      match args with
      | [] => trivial
      | first :: rest =>
        have hfirst := hnames false first rest (.self _)
        cases first with
        | literal v =>
          refine evaluate_apply_callsOnly (fun name hv => hS name ?_) fun n hn =>
            hargs n (List.mem_cons_of_mem _ hn)
          exact mem_references_operation.2 (.inl (hv ▸ rfl))
        | _ => cases hfirst
    · exact evaluate_operation_callsOnly hop hargs
  | iteration op source predicate initial ihs ihp ihi =>
    have hpredicate : predicate.WellFormed → ∀ data, (predicate.evaluate data).CallsOnly S :=
      fun hp => ihp hp (fun b first rest h => hnames true first rest (.predicate h)) fun name h =>
        hS name (mem_references_iteration.2 (.inr (.inl h)))
    have hsource : source.WellFormed → (source.evaluate data).CallsOnly S := fun hs =>
      ihs hs (fun b first rest h => hnames b first rest (.source h)) (fun name h =>
        hS name (mem_references_iteration.2 (.inl h))) data
    cases initial with
    | none =>
      obtain ⟨hop, hs, hp⟩ := hwf
      rw [evaluate]
      exact (hsource hs).bind fun v =>
        Program.callsOnly_closed.iterate hop (hpredicate hp) v.items none
    | some initial =>
      obtain ⟨rfl, hs, hp, hi⟩ := hwf
      have hinitial := ihi initial rfl hi (fun b first rest h => hnames b first rest (.initial h))
        (fun name h => hS name (mem_references_iteration.2 (.inr (.inr ⟨initial, rfl, h⟩)))) data
      rw [evaluate]
      exact (hsource hs).bind fun v => hinitial.bind fun w =>
        Program.callsOnly_closed.iterate rfl (hpredicate hp) v.items (some w)

end Node
end JsonRules
