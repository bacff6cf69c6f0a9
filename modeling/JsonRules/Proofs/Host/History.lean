import JsonRules.Host.Registry
import JsonRules.Host.Stock
import JsonRules.Proofs.Engine.Session
import JsonRules.Proofs.List
import Mathlib.Data.Finset.Card

/-!
# What a registry shows of its history

A registry is what one gets by registering, one after the other, all that is in its log (`copies_eq`). So
it has the last function of each name and nothing else (`reflects_replay`), whatever has become of the other
copies meanwhile (`getElem?_copies_append`).
-/

namespace JsonRules
namespace Registry

variable {σ : Type} {log : List (String × HostFunction σ)} {name : String} {f : HostFunction σ}

/-! ### The last registration of a name -/

theorem last?_concat (other : String) :
    last? (log ++ [(other, f)]) name = if other = name then some f else last? log name := by
  unfold last?
  rw [List.filter_append]
  by_cases h : other = name
  · simp [h]
  · simp [h]

theorem isSome_last? : (last? log name).isSome = true ↔ name ∈ log.map Prod.fst := by
  simp [last?]

/-- The registry that a log leads to. -/
def replay (log : List (String × HostFunction σ)) : Registry σ :=
  log.foldl (fun r entry => r.register entry.1 entry.2) empty

theorem replay_concat : replay (log ++ [(name, f)]) = (replay log).register name f :=
  List.foldl_concat _ _ _ _

theorem get?_replay (log : List (String × HostFunction σ)) (name : String) :
    (replay log).get? name = last? log name := by
  induction log using List.reverseRecOn with
  | nil => exact get?_empty
  | append_singleton log entry ih =>
    obtain ⟨other, f⟩ := entry
    rw [replay_concat, get?_register, last?_concat, ih]

/-! ### What a registry shows -/

/-- A registry shows the last registration of each name of a log: its function under the name, the names in
ascending order and their number, and whether one of the last functions is asynchronous. -/
structure Reflects (r : Registry σ) (log : List (String × HostFunction σ)) : Prop where
  get? (name : String) : r.get? name = last? log name
  get?_eq_none (name : String) : r.get? name = none ↔ name ∉ log.map Prod.fst
  contains (name : String) : r.contains name = (r.get? name).isSome
  size : r.size = (log.map Prod.fst).toFinset.card
  names : r.names.Pairwise (· < ·)
  mem_names (name : String) : name ∈ r.names ↔ name ∈ log.map Prod.fst
  hasAsync : r.hasAsync = true ↔ ∃ name f, last? log name = some f ∧ f.isAsync = true

theorem mem_names_iff {r : Registry σ} : name ∈ r.names ↔ (r.get? name).isSome = true := by
  unfold names get?
  rw [Std.TreeMap.mem_keys, Std.TreeMap.mem_iff_isSome_getElem?]

theorem pairwise_names (r : Registry σ) : r.names.Pairwise (· < ·) :=
  r.entries.ordered_keys.imp compareOfLessAndEq_eq_lt.1

theorem size_eq_card (r : Registry σ) : r.size = r.names.toFinset.card := by
  have hnodup : r.names.Nodup := Std.TreeMap.nodup_keys
  rw [List.toFinset_card_of_nodup hnodup]
  exact Std.TreeMap.length_keys.symm

theorem reflects_replay (log : List (String × HostFunction σ)) : (replay log).Reflects log := by
  have hget := get?_replay log
  have hmem : ∀ name, name ∈ (replay log).names ↔ name ∈ log.map Prod.fst := by
    intro name
    rw [mem_names_iff, hget, isSome_last?]
  refine ⟨hget, fun name => ?_, fun name => ?_, ?_, pairwise_names _, hmem, ?_⟩
  · rw [hget, ← Option.not_isSome_iff_eq_none, isSome_last?]
  · exact Std.TreeMap.isSome_getElem?_eq_contains.symm
  · rw [size_eq_card]
    congr 1
    ext name
    rw [List.mem_toFinset, List.mem_toFinset, hmem]
  · rw [hasAsync_iff]
    simp only [hget]

/-! ### Copies -/

section
variable {α β : Type} {register : α → String → HostFunction σ → α} {register' : β → String → HostFunction σ → β}

/-- A change does the same to what copies stand for. -/
theorem Change.apply_map {φ : α → β} (h : ∀ a name f, register' (φ a) name f = φ (register a name f))
    (l : List α) (c : Change σ) :
    c.apply register' (l.map φ) = (c.apply register l).map φ := by
  cases c with
  | register i name f => exact List.modify_map (fun a => h a name f) l i
  | clone i =>
    simp only [apply, List.map_append, List.getElem?_map]
    cases l[i]? <;> rfl

/-- Registering on one copy and cloning leave the other copies alone. -/
theorem Change.getElem?_apply {l : List α} {j : Nat} (hj : j < l.length) {c : Change σ}
    (hc : ∀ name f, c ≠ .register j name f) : (c.apply register l)[j]? = l[j]? := by
  cases c with
  | register i name f =>
    have hij : i ≠ j := by
      rintro rfl
      exact hc name f rfl
    exact List.getElem?_modify_ne _ _ hij
  | clone i => exact List.getElem?_append_left hj

end

theorem copies_concat (history : List (Change σ)) (c : Change σ) :
    copies (history ++ [c]) = c.apply register (copies history) :=
  List.foldl_concat _ _ _ _

theorem copies_eq (history : List (Change σ)) : copies history = (logs history).map replay := by
  induction history using List.reverseRecOn with
  | nil => rfl
  | append_singleton history c ih =>
    have hlogs : logs (history ++ [c]) = c.apply (fun log name f => log ++ [(name, f)]) (logs history) :=
      List.foldl_concat _ _ _ _
    rw [copies_concat, hlogs, ih]
    exact Change.apply_map (fun log name f => replay_concat.symm) (logs history) c

/-- Whatever happens to the other copies, one on which nothing is registered stays as it is. -/
theorem getElem?_copies_append {history later : List (Change σ)} {j : Nat} (hj : j < (copies history).length)
    (h : ∀ name f, .register j name f ∉ later) : (copies (history ++ later))[j]? = (copies history)[j]? := by
  induction later using List.reverseRecOn with
  | nil => rw [List.append_nil]
  | append_singleton later c ih =>
    have hlater : ∀ name f, .register j name f ∉ later := by
      intro name f hmem
      exact h name f (List.mem_append_left _ hmem)
    have hc : ∀ name f, c ≠ .register j name f := by
      rintro name f rfl
      exact h name f (by simp)
    have hsame := ih hlater
    -- the copy is still there, or the change could make one of its number
    have hbound : j < (copies (history ++ later)).length := by
      rw [List.getElem?_eq_getElem hj] at hsame
      exact (List.getElem?_eq_some_iff.1 hsame).1
    rw [← List.append_assoc, copies_concat, Change.getElem?_apply hbound hc, hsame]

theorem getElem?_copies_register {history : List (Change σ)} {i : Nat} {r : Registry σ}
    (h : (copies history)[i]? = some r) (name : String) (f : HostFunction σ) :
    (copies (history ++ [.register i name f]))[i]? = some (r.register name f) := by
  rw [copies_concat]
  simp only [Change.apply, List.getElem?_modify_eq, h]
  rfl

/-- Where a synchronous function takes the place of the only asynchronous one there is none left. -/
theorem hasAsync_register {r : Registry σ} (honly : ∀ other, r.isAsync other = true ↔ other = name)
    (hf : f.isAsync = false) : (r.register name f).hasAsync = false := by
  rw [← Bool.not_eq_true, hasAsync_iff]
  rintro ⟨other, g, hget, hg⟩
  rw [get?_register] at hget
  by_cases h : name = other
  · rw [if_pos h] at hget
    cases hget
    rw [hf] at hg
    cases hg
  · rw [if_neg h] at hget
    have hasync : r.isAsync other = true := by rw [isAsync_of_get? hget, hg]
    exact h ((honly other).1 hasync).symm

/-- After every history each copy shows the last registrations of its log. What happens to other copies later
changes nothing about a copy. Where just one function of a copy is asynchronous, evaluations that go by the copy
are not begun, and once a synchronous function is registered in its place they are over at once. -/
theorem copies_reflect (history : List (Change σ)) :
    List.Forall₂ Reflects (copies history) (logs history) ∧
    (∀ later j, j < (copies history).length → (∀ name f, .register j name f ∉ later) →
      (copies (history ++ later))[j]? = (copies history)[j]?) ∧
    ∀ i r name f, (copies history)[i]? = some r → (∀ other, r.isAsync other = true ↔ other = name) →
      f.isAsync = false →
      (∀ (e : Engine) rule data s, (e.evaluateAuto r rule data s).isPending = true) ∧
      ∃ r', (copies (history ++ [.register i name f]))[i]? = some r' ∧
        ∀ (e : Engine) rule data s, (e.evaluateAuto r' rule data s).isPending = false := by
  refine ⟨?_, fun later j hj h => getElem?_copies_append hj h, fun i r name f hr honly hf => ⟨?_, ?_⟩⟩
  · rw [copies_eq, List.forall₂_map_left_iff]
    exact List.forall₂_same.2 fun log _ => reflects_replay log
  · intro e rule data s
    rw [Engine.isPending_evaluateAuto, hasAsync_iff]
    obtain ⟨g, hget, hg⟩ := (Option.any_eq_true _ _).1 ((honly name).2 rfl)
    exact ⟨name, g, hget, hg⟩
  · refine ⟨_, getElem?_copies_register hr name f, fun e rule data s => ?_⟩
    rw [Engine.isPending_evaluateAuto, hasAsync_register honly hf]

/-- A registry is cloned and then loses its asynchronous function, which the clone keeps. -/
theorem copies_reflect_fork :
    let tick (pace : Pace) : HostFunction Tally := ⟨pace, Stock.body (.counter 0)⟩
    let history : List (Change Tally) := [.register 0 "tick" (tick (.async 1)), .clone 0]
    let later : List (Change Tally) := [.register 0 "tick" (tick .sync)]
    ∃ r r', (copies (history ++ later))[0]? = some r ∧ (copies (history ++ later))[1]? = some r' ∧
      r.size = 1 ∧ r.get? "tick" = some (tick .sync) ∧ r'.get? "tick" = some (tick (.async 1)) ∧
      (∀ (e : Engine) rule data s, (e.evaluateAuto r rule data s).isPending = false) ∧
      ∀ (e : Engine) rule data s, (e.evaluateAuto r' rule data s).isPending = true := by
  intro tick history later
  obtain ⟨-, hother, honly⟩ := copies_reflect history
  have hkept : (copies (history ++ later))[1]? = (copies history)[1]? :=
    hother later 1 (by decide) (by simp [later])
  have hasync : ∀ other, (empty.register "tick" (tick (.async 1))).isAsync other = true ↔ other = "tick" := by
    intro other
    rw [isAsync, get?_register, get?_empty]
    by_cases h : "tick" = other
    · simp [h, tick, HostFunction.isAsync]
    · simp [h, Ne.symm h]
  obtain ⟨hpending, r, hr, hready⟩ := honly 0 _ "tick" (tick .sync) rfl hasync rfl
  obtain ⟨hreflects, -, -⟩ := copies_reflect (history ++ later)
  cases hr
  obtain _ | ⟨hfirst, _ | ⟨hsecond, -⟩⟩ := hreflects
  refine ⟨_, _, rfl, hkept, ?_, ?_, ?_, hready, hpending⟩
  · rw [hfirst.size]
    decide
  · rw [hfirst.get?]
    rfl
  · rw [hsecond.get?]
    rfl

end Registry
end JsonRules
