import JsonRules.Host.Stock
import JsonRules.Proofs.List
import JsonRules.Proofs.Run.Loops
import JsonRules.Rule.Perform
import Mathlib.Data.List.Infix

/-!
# Searches against computing on every item

`map` evaluates its predicate on every item. The iterations that search do the same on the first items
only, as many as settle the answer (`run_iterate_of_search?`), so their answers come from the values that
`map` has, also where it fails later on (`result_of_run_mapM`, `result_of_run_mapM_error`).

The iterations that search agree with `map` on the same items: `run_search` tells their results and their
journals by what `map` does on the items and on the first of them. Nothing is asked of the host.
-/

namespace JsonRules

/-! ## Programs -/

theorem Search.answer_of_any {q : Search} {values : List Json} (h : values.any q.decides = true) :
    q.answer values = q.verdict := by
  simp [answer, h]

namespace Operator

open Program

variable {σ : Type} {op : Operator} {q : Search} {host : Host σ} {step : Json → Program Json}
  {items : List Json} {s : σ}

theorem iterate_map (step : Json → Program Json) (items : List Json) (initial : Option Json) :
    iterate .map step items initial = (items.mapM step).bind fun ys => .done (.arr ys) := rfl

theorem iterate_filter (step : Json → Program Json) (items : List Json) (initial : Option Json) :
    iterate .filter step items initial =
      (items.mapM step).bind fun ys =>
        .done (.arr (((items.zip ys).filter (·.2.truthy)).map Prod.fst)) := by
  rw [iterate, filterM_eq, map_eq, bind_assoc]
  rfl

/-- A search asks whether there is an item that settles the answer. -/
theorem iterate_of_search? (h : op.search? = some q) (step : Json → Program Json)
    (items : List Json) (initial : Option Json) :
    op.iterate step items initial =
      (items.anyM fun v => q.decides <$> step v).bind fun found => .done (.bool (found == q.verdict)) := by
  cases op with
  | someItem =>
    cases h
    simp [iterate]
  | everyItem =>
    cases h
    simp [iterate, List.allM_eq_not_anyM_not, bind_assoc, Program.bind]
  | noItem =>
    cases h
    simp [iterate]
  | _ => cases h

/-- A search does what `map` does on as many items as settle the answer. -/
theorem run_iterate_of_search? (h : op.search? = some q) (host : Host σ)
    (step : Json → Program Json) (items : List Json) (initial : Option Json) (s : σ) :
    ∃ n, Settles host step q.decides items s n ∧
      (op.iterate step items initial).run host s =
        let t := ((items.take n).mapM step).run host s
        { t with result := (fun ys => .bool (q.answer ys)) <$> t.result } := by
  obtain ⟨n, hn, hrun⟩ := run_anyM host step q.decides items s
  refine ⟨n, hn, ?_⟩
  rw [iterate_of_search? h, run_map, hrun]
  simp only [Functor.map_map]
  rfl

theorem result_of_run_mapM (h : op.search? = some q) {ys : List Json}
    (hys : ((items.mapM step).run host s).result = .ok ys) (initial : Option Json) :
    ((op.iterate step items initial).run host s).result = .ok (.bool (q.answer ys)) := by
  obtain ⟨n, hn, hrun⟩ := run_iterate_of_search? h host step items initial s
  have htake := run_mapM_take hys n
  have hanswer : q.answer (ys.take n) = q.answer ys := by
    rcases Nat.lt_or_eq_of_le hn.le with hlt | rfl
    · have hfound := hn.found hlt _ htake
      rw [Search.answer_of_any hfound, Search.answer_of_any (List.any_of_any_take hfound)]
    · rw [List.take_of_length_le (Nat.le_of_eq (length_of_run_mapM hys))]
  rw [hrun]
  simp only [htake, ← hanswer]
  rfl

/-- Where `map` fails at an item, a search answers by the values before it if one of these settles the
answer, and fails otherwise. -/
theorem result_of_run_mapM_error (h : op.search? = some q) {k : Nat} {ys : List Json} {e : RuleError}
    (hk : k < items.length)
    (hys : (((items.take k).mapM step).run host s).result = .ok ys)
    (he : (((items.take (k + 1)).mapM step).run host s).result = .error e) (initial : Option Json) :
    ((op.iterate step items initial).run host s).result =
      if ys.any q.decides then .ok (.bool q.verdict) else .error e := by
  obtain ⟨n, hn, hrun⟩ := run_iterate_of_search? h host step items initial s
  -- a search that goes on past the item would have values where there are none
  have hle : n ≤ k + 1 := Nat.le_of_not_lt fun hlt => by
    obtain ⟨zs, hzs, -⟩ := hn.before (k + 1) hlt
    cases he.symm.trans hzs
  rw [hrun]
  rcases Nat.lt_or_eq_of_le hle with hlt | rfl
  · have htake := run_mapM_take hys n
    rw [List.take_take, Nat.min_eq_left (Nat.le_of_lt_succ hlt)] at htake
    have hfound := hn.found (by omega) _ htake
    rw [if_pos (List.any_of_any_take hfound), ← Search.answer_of_any hfound]
    simp only [htake]
    rfl
  · obtain ⟨zs, hzs, hnone⟩ := hn.before k (Nat.lt_succ_self k)
    cases hys.symm.trans hzs
    rw [hnone]
    simp only [he]
    rfl

end Operator

/-! ## Runs -/

namespace Engine

open Program

variable {σ : Type}

theorem run_iteration_items (mode : Mode) (r : Registry σ) (op : Operator) (items : List Json)
    (predicate : Node) (data : Json) (s : σ) :
    run mode r (.iteration op (.literal (.arr items)) predicate none) data s =
      (op.iterate predicate.evaluate items none).run (r.host mode) s := by
  rw [run_eq, Node.evaluate, Node.evaluate]
  rfl

theorem run_map_items (mode : Mode) (r : Registry σ) (items : List Json) (predicate : Node)
    (data : Json) (s : σ) :
    run mode r (.iteration .map (.literal (.arr items)) predicate none) data s =
      let t := (items.mapM predicate.evaluate).run (r.host mode) s
      { t with result := .arr <$> t.result } := by
  rw [run_iteration_items, Operator.iterate_map, Program.run_map]

/-- Where `map` has values, so have the other iterations: a search answers by them, and `filter` keeps
the items whose values count as true. Where `map` fails at an item, `filter` fails with the same error,
and a search too unless a value before has settled it. A search evaluates the predicate as `map` does on
the shortest part of the items that settles it, from the left, and on no others. -/
theorem run_search (mode : Mode) (r : Registry σ) (predicate : Node) (data : Json)
    (items : List Json) (s : σ) :
    let loop (op : Operator) (xs : List Json) :=
      run mode r (.iteration op (.literal (.arr xs)) predicate none) data s
    (∀ v, (loop .map items).result = .ok v → ∃ ys, v = .arr ys ∧ ys.length = items.length ∧
      (∀ i x y, items[i]? = some x → ys[i]? = some y →
        (run mode r predicate x (loop .map (items.take i)).state).result = .ok y) ∧
      (loop .someItem items).result = .ok (.bool (ys.any Json.truthy)) ∧
      (loop .everyItem items).result = .ok (.bool (ys.all Json.truthy)) ∧
      (loop .noItem items).result = .ok (.bool (!ys.any Json.truthy)) ∧
      (loop .filter items).result =
        .ok (.arr (((items.zip ys).filter (·.2.truthy)).map Prod.fst))) ∧
    (∀ e, (loop .map items).result = .error e → ∃ k x ys, items[k]? = some x ∧
      (loop .map (items.take k)).result = .ok (.arr ys) ∧
      (run mode r predicate x (loop .map (items.take k)).state).result = .error e ∧
      (loop .filter items).result = .error e ∧
      ∀ op q, op.search? = some q → (loop op items).result =
        if ys.any q.decides then .ok (.bool q.verdict) else .error e) ∧
    ∀ op q, op.search? = some q → ∃ n ≤ items.length,
      (∀ m < n, ∃ ys, (loop .map (items.take m)).result = .ok (.arr ys) ∧
        ys.any q.decides = false) ∧
      (n < items.length → ∀ ys, (loop .map (items.take n)).result = .ok (.arr ys) →
        ys.any q.decides = true) ∧
      (loop op items).state = (loop .map (items.take n)).state ∧
      (loop op items).journal = (loop .map (items.take n)).journal ∧
      (loop op items).journal <+: (loop .map items).journal := by
  intro loop
  have hmap : ∀ xs, loop .map xs =
      let t := (xs.mapM predicate.evaluate).run (r.host mode) s
      { t with result := .arr <$> t.result } := fun xs => run_map_items mode r xs predicate data s
  have hloop : ∀ op, loop op items = (op.iterate predicate.evaluate items none).run (r.host mode) s :=
    fun op => run_iteration_items mode r op items predicate data s
  refine ⟨fun v hv => ?_, fun e he => ?_, fun op q hop => ?_⟩
  · rw [hmap] at hv
    obtain ⟨ys, hys, rfl⟩ := Result.map_eq_ok.1 hv
    refine ⟨ys, rfl, length_of_run_mapM hys, fun i x y hx hy => ?_, ?_, ?_, ?_, ?_⟩
    · rw [hmap, run_eq]
      exact run_of_run_mapM hys hx hy
    · rw [hloop, Operator.result_of_run_mapM rfl hys]
      simp [Search.answer]
    · rw [hloop, Operator.result_of_run_mapM rfl hys]
      simp [Search.answer, List.all_eq_not_any_not]
    · rw [hloop, Operator.result_of_run_mapM rfl hys]
      simp [Search.answer]
    · rw [hloop, Operator.iterate_filter, Program.run_map]
      exact Result.map_eq_ok.2 ⟨ys, hys, rfl⟩
  · rw [hmap] at he
    have he := Result.map_eq_error.1 he
    obtain ⟨k, x, ys, hx, hys, hfail, hsucc⟩ := exists_of_run_mapM_error he
    refine ⟨k, x, ys, hx, ?_, ?_, ?_, fun op q hop => ?_⟩
    · rw [hmap]
      exact Result.map_eq_ok.2 ⟨ys, hys, rfl⟩
    · rw [hmap, run_eq]
      exact hfail
    · rw [hloop, Operator.iterate_filter, Program.run_map]
      exact Result.map_eq_error.2 he
    · obtain ⟨hk, -⟩ := List.getElem?_eq_some_iff.1 hx
      rw [hloop, Operator.result_of_run_mapM_error hop hk hys hsucc]
  · obtain ⟨n, hn, hrun⟩ :=
      Operator.run_iterate_of_search? hop (r.host mode) predicate.evaluate items none s
    refine ⟨n, hn.le, fun m hm => ?_, fun hlt ys hys => ?_, ?_, ?_, ?_⟩
    · obtain ⟨ys, hys, hnone⟩ := hn.before m hm
      refine ⟨ys, ?_, hnone⟩
      rw [hmap]
      exact Result.map_eq_ok.2 ⟨ys, hys, rfl⟩
    · rw [hmap] at hys
      obtain ⟨_, hzs, heq⟩ := Result.map_eq_ok.1 hys
      cases heq
      exact hn.found hlt _ hzs
    · rw [hloop, hrun, hmap]
    · rw [hloop, hrun, hmap]
    · rw [hloop, hrun, hmap]
      exact journal_run_mapM_take _ _ items n s

theorem run_search_fail :
    let r : Registry Tally :=
      (Registry.empty.register "yes" ⟨.async 1, Stock.body (.constant (.bool true))⟩).register "fail"
        ⟨.sync, Stock.body (.failing "no")⟩
    let predicate : Node := .operation .apply [.operation .var [.literal (.str "")]]
    let loop (op : Operator) (xs : List Json) :=
      run .async r (.iteration op (.literal (.arr xs)) predicate none) .null [0]
    let items : List Json := [.str "yes", .str "yes", .str "fail"]
    (loop .map items).result = .error (.host "no") ∧
    (loop .filter items).result = .error (.host "no") ∧
    (loop .map (items.take 2)).result = .ok (.arr [.bool true, .bool true]) ∧
    (loop .everyItem (items.take 2)).result = .ok (.bool true) ∧
    Operator.search? .noItem = some ⟨Json.truthy, false⟩ ∧
    (loop .noItem items).journal <+: (loop .map items).journal := by
  intro r predicate loop items
  have herror : (run .async r (.iteration .map (.literal (.arr items)) predicate none) .null [0]).result =
      .error (.host "no") := by cbv
  have hvalues : (run .async r (.iteration .map (.literal (.arr (items.take 2))) predicate none)
      .null [0]).result = .ok (.arr [.bool true, .bool true]) := by cbv
  obtain ⟨-, hfail, hsearch⟩ := run_search .async r predicate .null items [0]
  obtain ⟨hall, -, -⟩ := run_search .async r predicate .null (items.take 2) [0]
  obtain ⟨_, _, _, -, -, -, hfilter, -⟩ := hfail _ herror
  obtain ⟨ys, hys, -, -, -, hevery, -⟩ := hall _ hvalues
  obtain ⟨_, -, -, -, -, -, hjournal⟩ := hsearch .noItem _ rfl
  cases hys
  exact ⟨herror, hfilter, hvalues, hevery, rfl, hjournal⟩

end Engine
end JsonRules
