import JsonRules.Engine
import JsonRules.Proofs.Engine.Session
import JsonRules.Proofs.Json.Reordered
import JsonRules.Proofs.Rule.References
import JsonRules.Proofs.Rule.Reordered

/-!
# What an evaluation depends on

A rule that names its variables does the same on data that agree on the paths of its tree
(`evaluate_noninterference`). A rule that names its functions calls no others, and does the same with
registries that agree on these (`evaluateAuto_eq_of_functions`), even where the registries ask for
different modes. The order in which the objects of the data list their fields makes no difference to a
rule that neither spells objects out nor calls the host (`evaluate_reordered`).
-/

namespace JsonRules
namespace Engine

variable {σ : Type}

/-- Data that agree on the paths of a rule cannot be told apart by it. -/
theorem evaluate_noninterference (e : Engine) (mode : Mode) (r : Registry σ) {rule : Json} {tree : Node}
    (h : e.compile rule = .ok tree) (hnames : tree.NamesVariables) {d d' : Json}
    (hpaths : ∀ path ∈ tree.paths, d.at? path = d'.at? path) (s : σ) :
    run mode r tree d s = run mode r tree d' s ∧
      e.evaluate mode r rule d s = e.evaluate mode r rule d' s := by
  have hprogram : tree.evaluate d = tree.evaluate d' :=
    Node.evaluate_eq_of_paths hnames fun path hpath => hpaths path (Node.mem_paths.2 hpath)
  have hrun : run mode r tree d s = run mode r tree d' s := by
    rw [run_eq, run_eq, hprogram]
  refine ⟨hrun, ?_⟩
  rw [evaluate_of_compile h, evaluate_of_compile h, hrun]

theorem evaluate_noninterference_secret :
    let r : Registry Tally := Registry.empty.register "tick" ⟨.async 1, Stock.body (.counter 0)⟩
    let rule : Json := .obj [("cat", .arr [
      .obj [("var", .arr [.str "name", .obj [("var", .str "id")]])],
      .obj [("map", .arr [.obj [("var", .str "items")],
        .obj [("apply", .arr [.str "tick", .obj [("var", .str "")]])]])]])]
    let d : Json := .obj [("secret", .bool true), ("id", .str "A"), ("items", .arr [.null, .null])]
    let d' : Json := .obj [("items", .arr [.null, .null]), ("id", .str "A")]
    ∃ tree, compile {} rule = .ok tree ∧ tree.NamesVariables ∧
      (∀ path ∈ tree.paths, d.at? path = d'.at? path) ∧
      evaluate {} .async r rule d [0] = evaluate {} .async r rule d' [0] := by
  intro r rule d d'
  let tree : Node := .operation .concat [
    .operation .var [.literal (.str "name"), .operation .var [.literal (.str "id")]],
    .iteration .map (.operation .var [.literal (.str "items")])
      (.operation .apply [.literal (.str "tick"), .operation .var [.literal (.str "")]]) none]
  have hnames : tree.NamesVariables := by
    intro args h
    have hargs : (args = [.literal (.str "name"), .operation .var [.literal (.str "id")]] ∨
        args = [.literal (.str "id")]) ∨ args = [.literal (.str "items")] := by
      simpa [tree, Node.holds_operation, Node.holds_iteration, Node.holds_literal] using h
    rcases hargs with (rfl | rfl) | rfl <;> exact ⟨_, _, rfl, by decide⟩
  have hpaths : ∀ path ∈ tree.paths, d.at? path = d'.at? path := by
    intro path hpath
    have hreferences : tree.references false =
        [.path "name", .path "id", .path "items", .function "tick"] := rfl
    rw [Node.mem_paths, hreferences] at hpath
    simp only [List.mem_cons, Reference.path.injEq, reduceCtorEq, List.not_mem_nil, or_false] at hpath
    rcases hpath with rfl | rfl | rfl <;> rfl
  exact ⟨tree, rfl, hnames, hpaths, (evaluate_noninterference {} .async r rfl hnames hpaths [0]).2⟩

/-! ### Functions -/

theorem resolve_evaluateAuto (e : Engine) (r : Registry σ) (rule data : Json) (s : σ) :
    (e.evaluateAuto r rule data s).resolve s = e.evaluate r.mode r rule data s := by
  unfold evaluateAuto Registry.mode
  split <;> rfl

theorem resolve_execute (r : Registry σ) (tree : Node) (data : Json) (s : σ) :
    (execute r tree data s).resolve s = run r.mode r tree data s := by
  unfold execute Registry.mode
  split <;> rfl

/-- A rule that names its functions calls no others, whatever the data. With registries that agree
on these it does the same, in whatever mode each of them is evaluated: only the note on the mode
differs. -/
theorem evaluateAuto_eq_of_functions (e : Engine) {rule : Json} {tree : Node}
    (h : e.compile rule = .ok tree) (hnames : tree.NamesFunctions) (data : Json) (s : σ) :
    (∀ (mode : Mode) (r : Registry σ), ∀ event ∈ (e.evaluate mode r rule data s).journal,
      ∀ name, event.function? = some name → name ∈ tree.functions) ∧
    ∀ r r' : Registry σ, (∀ name ∈ tree.functions, r'.get? name = r.get? name) →
      (execute r' tree data s).resolve s = (execute r tree data s).resolve s ∧
      ∃ t : Trail σ (Result Json),
        (e.evaluateAuto r rule data s).resolve s =
          { t with journal := .note (.start (.evaluate r.mode)) :: t.journal } ∧
        (e.evaluateAuto r' rule data s).resolve s =
          { t with journal := .note (.start (.evaluate r'.mode)) :: t.journal } := by
  have htree : (tree.evaluate data).CallsOnly (· ∈ tree.functions) :=
    Node.evaluate_callsOnly (Rule.compile_wellFormed h) hnames (fun _ => Node.mem_functions.2) data
  have hprogram : (e.program rule data).CallsOnly (· ∈ tree.functions) := by
    rw [program, h]
    exact Program.callsOnly_noting _ htree
  refine ⟨fun mode r event hevent name hname => ?_, fun r r' hsame => ?_⟩
  · rw [evaluate_eq_cons] at hevent
    rcases List.mem_cons.1 hevent with rfl | hevent
    · cases hname
    · exact Registry.function?_of_mem_journal_run hprogram mode s event hevent name hname
  · have hhost : ∀ name ∈ tree.functions, r'.host r'.mode name = r.host r.mode name :=
      fun name hname => Registry.host_mode_congr (hsame name hname)
    refine ⟨?_, (e.program rule data).run (r.host r.mode) s, ?_, ?_⟩
    · rw [resolve_execute, resolve_execute, run_eq, run_eq, Program.run_eq_of_callsOnly hhost htree]
    · rw [resolve_evaluateAuto, evaluate_eq_cons]
    · rw [resolve_evaluateAuto, evaluate_eq_cons, Program.run_eq_of_callsOnly hhost hprogram]

theorem evaluateAuto_eq_of_functions_unused :
    let r : Registry Tally := Registry.empty.register "tick" ⟨.sync, Stock.body (.counter 0)⟩
    let r' := r.register "fetch" ⟨.async 1, Stock.body .arguments⟩
    let rule : Json := .obj [("map", .arr [.obj [("var", .str "items")],
      .obj [("apply", .arr [.str "tick", .obj [("var", .str "")]])]])]
    let data : Json := .obj [("items", .arr [.obj [("apply", .arr [.str "fetch"])], .null])]
    ∃ tree, compile {} rule = .ok tree ∧ tree.NamesFunctions ∧
      (∀ name ∈ tree.functions, r'.get? name = r.get? name) ∧
      (evaluateAuto {} r rule data [0]).isPending = false ∧
      (evaluateAuto {} r' rule data [0]).isPending = true ∧
      (execute r' tree data [0]).resolve [0] = (execute r tree data [0]).resolve [0] := by
  intro r r' rule data
  let tree : Node := .iteration .map (.operation .var [.literal (.str "items")])
    (.operation .apply [.literal (.str "tick"), .operation .var [.literal (.str "")]]) none
  have hnames : tree.NamesFunctions := by
    intro inPredicate first rest h
    obtain ⟨-, rfl, -⟩ : inPredicate = true ∧ first = .literal (.str "tick") ∧
        rest = [.operation .var [.literal (.str "")]] := by
      simpa [tree, Node.holds_operation, Node.holds_iteration, Node.holds_literal] using h
    rfl
  have hsame : ∀ name ∈ tree.functions, r'.get? name = r.get? name := by
    intro name hname
    have hreferences : tree.references false = [.path "items", .function "tick"] := rfl
    rw [Node.mem_functions, hreferences] at hname
    simp only [List.mem_cons, Reference.function.injEq, reduceCtorEq, List.not_mem_nil, or_false,
      false_or] at hname
    subst hname
    rfl
  have htree : compile {} rule = .ok tree := rfl
  exact ⟨tree, htree, hnames, hsame, rfl, rfl,
    ((evaluateAuto_eq_of_functions {} htree hnames data [0]).2 r r' hsame).1⟩
/-! ### The order of fields -/

/-- On data with fields reordered a rule without concatenations and calls fails with the same error or
gives the same value with fields reordered. -/
theorem evaluate_reordered (e : Engine) (mode : Mode) (r : Registry σ) {rule : Json} {tree : Node}
    (h : e.compile rule = .ok tree) (hconcat : tree.Avoids .concat) (happly : tree.Avoids .apply)
    {d d' : Json} (hd : d.WellFormed) (hreordered : d.Reordered d') (s : σ) :
    Result.Related Json.Reordered (run mode r tree d s).result (run mode r tree d' s).result ∧
      Result.Related Json.Reordered (e.evaluate mode r rule d s).result
        (e.evaluate mode r rule d' s).result := by
  have hprogram := Node.evaluate_related hconcat happly (hreordered.sorted_eq hd)
  have hrun : Result.Related Json.Reordered (run mode r tree d s).result
      (run mode r tree d' s).result := by
    rw [run_eq, run_eq]
    exact (hprogram.run _ _ s s).imp fun _ _ => Json.reordered_of_sorted_eq
  refine ⟨hrun, ?_⟩
  rw [evaluate_of_compile h, evaluate_of_compile h]
  exact hrun

/-- A reduction that carries an item through its accumulator gives it with its own fields in their own
order. -/
theorem evaluate_reordered_carried :
    let r : Registry Unit := .empty
    let rule : Json := .obj [("reduce", .arr [.obj [("var", .str "items")],
      .obj [("?:", .arr [.obj [("===", .arr [.obj [("var", .str "current.id.name")], .str "a"])],
        .obj [("var", .str "current")], .obj [("var", .str "accumulator")]])],
      .null])]
    let item : Json := .obj [("id", .obj [("name", .str "a"), ("tag", .null)]), ("n", .ofInt 1)]
    let item' : Json := .obj [("n", .ofInt 1), ("id", .obj [("tag", .null), ("name", .str "a")])]
    let d : Json := .obj [("items", .arr [item, .null]), ("rest", .null)]
    let d' : Json := .obj [("rest", .null), ("items", .arr [item', .null])]
    (evaluate {} .sync r rule d ()).result = .ok item ∧
      (evaluate {} .sync r rule d' ()).result = .ok item' ∧
      Result.Related Json.Reordered (evaluate {} .sync r rule d ()).result
        (evaluate {} .sync r rule d' ()).result := by
  intro r rule item item' d d'
  let tree : Node := .iteration .reduce (.operation .var [.literal (.str "items")])
    (.operation .choose [
      .operation .same [.operation .var [.literal (.str "current.id.name")], .literal (.str "a")],
      .operation .var [.literal (.str "current")], .operation .var [.literal (.str "accumulator")]])
    (some (.literal .null))
  have htree : compile {} rule = .ok tree := rfl
  have hconcat : tree.Avoids .concat := by
    intro b args h
    simp [tree, Node.holds_operation, Node.holds_iteration, Node.holds_literal] at h
  have happly : tree.Avoids .apply := by
    intro b args h
    simp [tree, Node.holds_operation, Node.holds_iteration, Node.holds_literal] at h
  have hd : d.WellFormed := by
    simp [d, item, Json.ofInt, Json.WellFormed, Json.WellFormedItems, Json.WellFormedFields,
      Number.InRange]
  have hitem : item.Reordered item' :=
    .trans (.field [] _ "id" (.fields (.swap _ _ _))) (.fields (.swap _ _ _))
  have hreordered : d.Reordered d' :=
    .trans (.field [] _ "items" (.item [] _ hitem)) (.fields (.swap _ _ _))
  exact ⟨rfl, rfl, (evaluate_reordered {} .sync r htree hconcat happly hd hreordered ()).2⟩

end Engine
end JsonRules
