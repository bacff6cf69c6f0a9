import JsonRules.Host.Stock
import JsonRules.Proofs.Engine.Search
import JsonRules.Proofs.Rule.Image
import JsonRules.Proofs.Run.Related

/-!
# Laws of iterations

A search with the opposite verdict is the negated one, and a search for items of which something does
not hold is one for which its negation holds (`iterate_someItem`, `iterate_everyItem`). An iteration
over a list in two parts goes through the first part and then on through the second from what the first
has given.

What an iteration over `xs ++ ys` does is what it does over `xs` and, unless this fails or decides a
search, what it then does over `ys` from the state that is left (`run_append`). A reduction takes the
accumulator along, and `map` and `filter` have the items of both results.
-/

namespace JsonRules

/-! ## Programs -/

namespace Operator

open Program

variable {σ : Type} {op : Operator} {q : Search} {host : Host σ} {step : Json → Program Json}
  {items : List Json} {initial : Option Json} {s : σ} {v : Json}

theorem isIteration_of_search? (h : op.search? = some q) : op.isIteration = true := by
  cases op with
  | someItem | everyItem | noItem => rfl
  | _ => cases h

theorem exists_arr_of_run_iterate (hop : op = .map ∨ op = .filter)
    (h : ((op.iterate step items initial).run host s).result = .ok v) : ∃ vs, v = .arr vs := by
  rcases hop with rfl | rfl
  · rw [iterate_map, run_map] at h
    obtain ⟨vs, -, rfl⟩ := Result.map_eq_ok.1 h
    exact ⟨vs, rfl⟩
  · rw [iterate_filter, run_map] at h
    obtain ⟨vs, -, rfl⟩ := Result.map_eq_ok.1 h
    exact ⟨_, rfl⟩

theorem exists_bool_of_run_iterate (hop : op.search? = some q)
    (h : ((op.iterate step items initial).run host s).result = .ok v) : ∃ b, v = .bool b := by
  rw [iterate_of_search? hop, run_map] at h
  obtain ⟨found, -, rfl⟩ := Result.map_eq_ok.1 h
  exact ⟨found == q.verdict, rfl⟩

/-- Taking traces out of a search takes them out of its predicate. -/
theorem untraced_iterate (h : op.search? = some q) (step : Json → Program Json) (items : List Json)
    (initial : Option Json) :
    (op.iterate step items initial).untraced =
      op.iterate (fun v => (step v).untraced) items initial := by
  rw [iterate_of_search? h, iterate_of_search? h, untraced_bind, untraced_anyM]
  simp only [map_eq, untraced_bind]
  rfl

/-! ### Negations -/

/-- Some item passes just if it is not so that none does. -/
theorem iterate_someItem (step : Json → Program Json) (items : List Json) (initial : Option Json) :
    iterate .someItem step items initial =
      (iterate .noItem step items initial).bind fun v => .done (.bool !v.truthy) := by
  rw [iterate_of_search? rfl, iterate_of_search? rfl, bind_assoc]
  refine congrArg _ (funext fun found => ?_)
  cases found <;> rfl

/-- Every item passes just if none fails to pass. -/
theorem iterate_everyItem (step : Json → Program Json) (items : List Json) (initial : Option Json) :
    iterate .everyItem step items initial =
      iterate .noItem (fun v => (step v).bind fun w => .done (.bool !w.truthy)) items initial := by
  rw [iterate_of_search? rfl, iterate_of_search? rfl]
  simp only [map_eq, bind_assoc]
  rfl

/-! ### Lists in two parts -/

/-- A search is over with the first part of a list if this gives its verdict. -/
theorem iterate_append_of_search? (h : op.search? = some q) (step : Json → Program Json)
    (xs ys : List Json) (initial : Option Json) :
    op.iterate step (xs ++ ys) initial = (op.iterate step xs initial).bind fun v =>
      if v.truthy = q.verdict then .done v else op.iterate step ys initial := by
  rw [iterate_of_search? h, iterate_of_search? h, iterate_of_search? h, anyM_append, bind_assoc,
    bind_assoc]
  refine congrArg _ (funext fun found => ?_)
  simp only [Program.bind, Json.truthy]
  cases found with
  | false => cases q.verdict <;> rfl
  | true => cases q.verdict <;> rfl

theorem iterate_map_append (step : Json → Program Json) (xs ys : List Json) (initial : Option Json) :
    iterate .map step (xs ++ ys) initial = (iterate .map step xs initial).bind fun v =>
      (iterate .map step ys initial).bind fun w => .done (.arr (v.items ++ w.items)) := by
  rw [iterate_map, iterate_map, iterate_map, mapM_append]
  simp only [bind_assoc, Program.bind, Json.items]

theorem iterate_filter_append (step : Json → Program Json) (xs ys : List Json)
    (initial : Option Json) :
    iterate .filter step (xs ++ ys) initial = (iterate .filter step xs initial).bind fun v =>
      (iterate .filter step ys initial).bind fun w => .done (.arr (v.items ++ w.items)) := by
  rw [iterate_filter, iterate_filter, iterate_filter, mapM_append]
  simp only [bind_assoc, Program.bind, Json.items]
  -- the values of each part belong to its items since there are as many
  refine mapM_bind_congr fun as has => congrArg _ (funext fun bs => ?_)
  rw [List.zip_append has.symm, List.filter_append, List.map_append]

theorem iterate_reduce_append (step : Json → Program Json) (xs ys : List Json)
    (initial : Option Json) :
    iterate .reduce step (xs ++ ys) initial =
      (iterate .reduce step xs initial).bind fun v => iterate .reduce step ys (some v) :=
  List.foldlM_append

/-- How an iteration that has come to a value goes on with further items. -/
def resume (op : Operator) (step : Json → Program Json) (items : List Json) (initial : Option Json)
    (v : Json) : Program Json :=
  match op.search? with
  | some q => if v.truthy = q.verdict then .done v else op.iterate step items initial
  | none =>
    if op = .reduce then op.iterate step items (some v)
    else (op.iterate step items initial).bind fun w => .done (.arr (v.items ++ w.items))

theorem resume_of_search? {b : Bool} (h : op.search? = some q) (step : Json → Program Json)
    (items : List Json) (initial : Option Json) :
    op.resume step items initial (.bool b) =
      if b = q.verdict then .done (.bool b) else op.iterate step items initial := by
  simp only [resume, h]
  rfl

theorem resume_arr (hop : op = .map ∨ op = .filter) (step : Json → Program Json)
    (items : List Json) (initial : Option Json) (vs : List Json) :
    op.resume step items initial (.arr vs) =
      (op.iterate step items initial).bind fun w => .done (.arr (vs ++ w.items)) := by
  rcases hop with rfl | rfl
  · rfl
  · rfl

/-- An iteration over a list in two parts goes on with the second where it is with the first. -/
theorem iterate_append (op : Operator) (step : Json → Program Json) (xs ys : List Json)
    (initial : Option Json) :
    op.iterate step (xs ++ ys) initial =
      (op.iterate step xs initial).bind (op.resume step ys initial) := by
  cases op with
  | someItem | everyItem | noItem => exact iterate_append_of_search? rfl step xs ys initial
  | map => exact iterate_map_append step xs ys initial
  | filter => exact iterate_filter_append step xs ys initial
  | reduce => exact iterate_reduce_append step xs ys initial
  -- no other operator iterates: it fails on either side
  | _ => rfl

end Operator

/-! ## Runs over lists in two parts -/

namespace Engine

open Program

variable {σ : Type}

theorem run_iteration_literal (mode : Mode) (r : Registry σ) (op : Operator) (items : List Json)
    (predicate : Node) (initial : Option Json) (data : Json) (s : σ) :
    run mode r (.iteration op (.literal (.arr items)) predicate (initial.map .literal)) data s =
      (op.iterate predicate.evaluate items initial).run (r.host mode) s := by
  cases initial with
  | none => exact run_iteration_items mode r op items predicate data s
  | some v =>
    rw [run_eq, Option.map_some, Node.evaluate, Node.evaluate, Node.evaluate]
    rfl

/-- If the first part fails, the whole does just what the first part does. If the first part gives a
value, the whole goes on with the second part from the state that is left, and its journal is that of
the first part and then that of the second: `map` and `filter` give the items of both parts, a reduction
starts the second part with the value of the first, and a search gives the answer of the second part,
unless the first part has given its verdict, with which it ends. -/
theorem run_append (mode : Mode) (r : Registry σ) (predicate : Node) (data : Json)
    (xs ys : List Json) (s : σ) :
    let loop (op : Operator) (items : List Json) (initial : Option Json) (s : σ) :=
      run mode r (.iteration op (.literal (.arr items)) predicate (initial.map .literal)) data s
    ∀ (op : Operator) (initial : Option Json),
      let whole := loop op (xs ++ ys) initial s
      let t := loop op xs initial s
      (∀ e, t.result = .error e → whole = t) ∧
      ∀ v, t.result = .ok v →
        (op = .map ∨ op = .filter → ∃ vs, v = .arr vs ∧
          let u := loop op ys initial t.state
          whole = ⟨(fun w => .arr (vs ++ w.items)) <$> u.result, u.state, t.journal ++ u.journal⟩) ∧
        (op = .reduce →
          let u := loop op ys (some v) t.state
          whole = ⟨u.result, u.state, t.journal ++ u.journal⟩) ∧
        ∀ q, op.search? = some q → ∃ b, v = .bool b ∧
          (b = q.verdict → whole = t) ∧
          (b ≠ q.verdict →
            let u := loop op ys initial t.state
            whole = ⟨u.result, u.state, t.journal ++ u.journal⟩) := by
  intro loop op initial whole t
  have hloop : ∀ items initial s,
      loop op items initial s = (op.iterate predicate.evaluate items initial).run (r.host mode) s :=
    fun items initial s => run_iteration_literal mode r op items predicate initial data s
  have ht : t = (op.iterate predicate.evaluate xs initial).run (r.host mode) s := hloop xs initial s
  have hwhole : whole = ((op.iterate predicate.evaluate xs initial).bind
      (op.resume predicate.evaluate ys initial)).run (r.host mode) s := by
    rw [← Operator.iterate_append]
    exact hloop (xs ++ ys) initial s
  refine ⟨fun e he => ?_, fun v hv => ?_⟩
  · rw [ht] at he
    rw [hwhole, ht, run_bind_of_error he, ← he]
  · rw [ht] at hv
    have hrest : whole =
        let u := (op.resume predicate.evaluate ys initial v).run (r.host mode) t.state
        ⟨u.result, u.state, t.journal ++ u.journal⟩ := by
      rw [hwhole, run_bind_of_ok hv, ht]
    refine ⟨fun hop => ?_, fun hop => ?_, fun q hop => ?_⟩
    · obtain ⟨vs, rfl⟩ := Operator.exists_arr_of_run_iterate hop hv
      refine ⟨vs, rfl, ?_⟩
      rw [hrest, Operator.resume_arr hop, run_map, hloop]
    · cases hop
      rw [hrest, hloop]
      rfl
    · obtain ⟨b, rfl⟩ := Operator.exists_bool_of_run_iterate hop hv
      refine ⟨b, rfl, fun hb => ?_, fun hb => ?_⟩
      · rw [hrest, Operator.resume_of_search? hop, if_pos hb, ht]
        simp only [Program.run, List.append_nil, ← hv]
      · rw [hrest, Operator.resume_of_search? hop, if_neg hb, hloop]

theorem run_append_tick :
    let r : Registry Tally :=
      ((Registry.empty.register "tick" ⟨.async 1, Stock.body (.counter 0)⟩).register "fail"
        ⟨.sync, Stock.body (.failing "no")⟩).register "yes" ⟨.sync, Stock.body (.constant (.bool true))⟩
    let tick : Node := .operation .apply [.literal (.str "tick")]
    let call : Node := .operation .apply [.operation .var [.literal (.str "")]]
    let loop (predicate : Node) (op : Operator) (items : List Json) (initial : Option Json)
        (s : Tally) :=
      run .async r (.iteration op (.literal (.arr items)) predicate (initial.map .literal)) .null s
    let xs : List Json := [.str "yes"]
    let ys : List Json := [.str "tick", .str "fail"]
    let t := loop tick .map xs none [0]
    let u := loop tick .reduce xs (some .null) [0]
    let v := loop call .everyItem xs none [0]
    (loop call .map ys none [0]).result = .error (.host "no") ∧
    loop call .map (ys ++ xs) none [0] = loop call .map ys none [0] ∧
    t.result = .ok (.arr [.ofInt 1]) ∧
    (loop tick .map (xs ++ ys) none [0]).state = (loop tick .map ys none t.state).state ∧
    u.result = .ok (.ofInt 1) ∧
    (loop tick .reduce (xs ++ ys) (some .null) [0]).result =
      (loop tick .reduce ys (some (.ofInt 1)) u.state).result ∧
    (loop call .someItem xs none [0]).result = .ok (.bool true) ∧
    loop call .someItem (xs ++ ys) none [0] = loop call .someItem xs none [0] ∧
    v.result = .ok (.bool true) ∧
    (loop call .everyItem (xs ++ ys) none [0]).result =
      (loop call .everyItem ys none v.state).result := by
  intro r tick call loop xs ys t u v
  have hfail : (loop call .map ys none [0]).result = .error (.host "no") := by
    simp only [loop]
    cbv
  have hone : t.result = .ok (.arr [.ofInt 1]) := by
    simp only [t, loop]
    cbv
  have hcount : u.result = .ok (.ofInt 1) := by
    simp only [u, loop]
    cbv
  have hsome : (loop call .someItem xs none [0]).result = .ok (.bool true) := by
    simp only [loop]
    cbv
  have hevery : v.result = .ok (.bool true) := by
    simp only [v, loop]
    cbv
  have hstop := (run_append .async r call .null ys xs [0] .map none).1 _ hfail
  obtain ⟨hmap, -, -⟩ := (run_append .async r tick .null xs ys [0] .map none).2 _ hone
  obtain ⟨-, hreduce, -⟩ :=
    (run_append .async r tick .null xs ys [0] .reduce (some .null)).2 _ hcount
  obtain ⟨-, -, hfound⟩ := (run_append .async r call .null xs ys [0] .someItem none).2 _ hsome
  obtain ⟨-, -, hsearch⟩ := (run_append .async r call .null xs ys [0] .everyItem none).2 _ hevery
  obtain ⟨_, -, hmap⟩ := hmap (.inl rfl)
  obtain ⟨_, heq, hfound, -⟩ := hfound _ rfl
  cases heq
  obtain ⟨_, heq, -, hsearch⟩ := hsearch _ rfl
  cases heq
  have hstate := congrArg Trail.state hmap
  have hreduced := congrArg Trail.result (hreduce rfl)
  have hanswer := congrArg Trail.result (hsearch (by decide))
  exact ⟨hfail, hstop, hone, hstate, hcount, hreduced, hsome, hfound rfl, hevery, hanswer⟩

end Engine
end JsonRules
