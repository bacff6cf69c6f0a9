import JsonRules.Proofs.Json.Reordered
import JsonRules.Proofs.Rule.Compile
import JsonRules.Proofs.Run.Related
import JsonRules.Rule.Tree

/-!
# Rules on data with fields reordered

On sorted operands and sorted data every operator but one gives what it gave before, sorted, or fails as
it failed before (`result_sorted`). The exception is the concatenation of texts, where objects are
spelled as they stand.

A tree that neither spells objects out nor calls the host ends alike on data that are the same once
sorted (`evaluate_related`). Operators see to it by `result_sorted`; iterations run over items that are
the same once sorted, one by one, and what an accumulator carries from one to the next is so too.
-/

namespace JsonRules

/-! ## Operators on sorted values -/

namespace Json

theorem asNumber_sorted (v : Json) : v.sorted.asNumber = v.asNumber := by
  rw [asNumber, asNumber, numeric?_sorted, kind_sorted]

theorem coerceNumber_sorted (v : Json) : v.sorted.coerceNumber = v.coerceNumber := by
  cases v <;> rfl

theorem asPath_sorted (v : Json) : v.sorted.asPath = v.asPath := by
  cases v <;> rfl

theorem compareValues_sorted (v w : Json) : v.sorted.compareValues w.sorted = v.compareValues w := by
  rw [compareValues, compareValues, order?_sorted]

theorem ordered_sorted (accept : Ordering → Bool) (v w : Json) :
    v.sorted.ordered accept w.sorted = v.ordered accept w := by
  rw [ordered, ordered, order?_sorted]

theorem truthy_comp_sorted : truthy ∘ sorted = truthy :=
  funext truthy_sorted

theorem atOr_sorted (v : Json) (path : String) (missing : Json) :
    v.sorted.atOr path missing.sorted = (v.atOr path missing).sorted := by
  rw [atOr, atOr, at?_sorted]
  cases v.at? path <;> rfl

end Json

namespace Operator

open Json

variable {operands : List Json} {data : Json}

/-! ### Arithmetic -/

/-- A value, if there is one, is a scalar, so that it is sorted already. -/
def GivesScalar (r : Result Json) : Prop := ∀ v, r = .ok v → v.IsScalar

namespace GivesScalar

theorem sorted_map {r : Result Json} (h : GivesScalar r) : sorted <$> r = r := by
  cases r with
  | error e => rfl
  | ok v => exact congrArg Except.ok (sorted_of_isScalar (h v rfl))

theorem error (e : RuleError) : GivesScalar (.error e) := nofun

theorem bind {α : Type} {r : Result α} {f : α → Result Json} (h : ∀ a, GivesScalar (f a)) :
    GivesScalar (r >>= f) := by
  intro v hv
  obtain ⟨a, -, ha⟩ := Result.bind_eq_ok.1 hv
  exact h a v ha

theorem ofArithmetic (x : Extended) : GivesScalar (Json.ofArithmetic x) := by
  intro v hv
  unfold Json.ofArithmetic at hv
  split at hv
  · cases hv
    exact ⟨nofun, nofun⟩
  · cases hv

theorem quotient (a b : Json) : GivesScalar (quotient a b) := by
  refine bind fun x => bind fun y => ?_
  split
  · exact error _
  · exact ofArithmetic _

theorem ofDoubles (x y : Double) : GivesScalar (remainder.ofDoubles x y) := by
  unfold remainder.ofDoubles
  split
  · exact error _
  · exact ofArithmetic _

theorem remainder (a b : Json) : GivesScalar (remainder a b) := by
  unfold Operator.remainder
  split
  · split
    · split
      · exact error _
      · rintro v ⟨⟩
        exact ⟨nofun, nofun⟩
    · exact ofDoubles _ _
  · exact bind fun x => bind fun y => ofDoubles x y

end GivesScalar

theorem accumulate_sorted (op : Extended → Extended → Extended) (start : Int) (operands : List Json) :
    accumulate op start (operands.map sorted) = accumulate op start operands := by
  rw [accumulate, accumulate, List.foldlM_map]
  simp only [coerceNumber_sorted]

theorem quotient_sorted (a b : Json) : quotient a.sorted b.sorted = quotient a b := by
  rw [quotient, quotient, coerceNumber_sorted, coerceNumber_sorted]

theorem remainder_sorted (a b : Json) : remainder a.sorted b.sorted = remainder a b := by
  cases a <;> cases b <;> rfl

/-! ### Order -/

theorem chained_sorted (accept : Ordering → Bool) (operands : List Json) :
    chained accept (operands.map sorted) = chained accept operands := by
  induction operands with
  | nil => rfl
  | cons a rest ih =>
    cases rest with
    | nil => rfl
    | cons b rest =>
      have hfirst := ordered_sorted accept a b
      cases rest with
      | nil => exact hfirst
      | cons c rest => exact congrArg₂ (· && ·) hfirst ih

theorem extremum_cons (replaces : Ordering → Bool) (first v : Json) (others : List Json) :
    extremum replaces first (v :: others) =
      v.compareValues first >>= fun o => extremum replaces (if replaces o then v else first) others := by
  rw [extremum, List.foldlM_cons]
  cases v.compareValues first <;> rfl

theorem extremum_sorted (replaces : Ordering → Bool) (first : Json) (others : List Json) :
    extremum replaces first.sorted (others.map sorted) = sorted <$> extremum replaces first others := by
  induction others generalizing first with
  | nil => rfl
  | cons v rest ih =>
    rw [List.map_cons, extremum_cons, extremum_cons, compareValues_sorted, map_bind]
    refine congrArg _ (funext fun o => ?_)
    rw [← ih, apply_ite sorted]

/-! ### Parts -/

theorem isMember_sorted (needle container : Json) :
    isMember needle.sorted container.sorted = isMember needle container := by
  cases container with
  | arr items =>
    rw [sorted_arr, isMember, isMember, List.any_map]
    simp only [Function.comp_def, equal_sorted]
  | obj fields =>
    cases needle with
    | str name =>
      simp only [sorted, isMember, field?_sortedFields, Option.isSome_map]
    | _ => rfl
  | str text => cases needle <;> rfl
  | _ => rfl

theorem merged_sorted (operands : List Json) :
    merged (operands.map sorted) = (merged operands).map sorted := by
  unfold merged
  rw [List.flatMap_map, List.map_flatMap]
  congr 1
  funext v
  cases v with
  | arr items => rw [sorted_arr]
  | _ => rfl

theorem lookup_sorted (path missing data : Json) :
    lookup path.sorted missing.sorted data.sorted = sorted <$> lookup path missing data := by
  rw [lookup, lookup, asPath_sorted]
  simp only [atOr_sorted]
  cases path.asPath <;> rfl

/-! ### All operators -/

theorem value?_sorted {op : Operator} (hop : op ≠ .concat)
    (harity : op.arity.accepts operands.length = true) (data : Json) :
    op.value? data.sorted (operands.map sorted) = sorted <$> op.value? data operands := by
  cases op with
  | equal | notEqual =>
    obtain ⟨a, b, rfl⟩ := List.length_eq_two.1 (beq_iff_eq.1 harity)
    simp only [List.map_cons, List.map_nil, value?, equal_sorted]
    rfl
  | same | notSame =>
    obtain ⟨a, b, rfl⟩ := List.length_eq_two.1 (beq_iff_eq.1 harity)
    simp only [List.map_cons, List.map_nil, value?, same_sorted]
    rfl
  | greater | greaterOrEqual =>
    obtain ⟨a, b, rfl⟩ := List.length_eq_two.1 (beq_iff_eq.1 harity)
    simp only [List.map_cons, List.map_nil, value?, compareValues_sorted]
    cases a.compareValues b <;> rfl
  | less | lessOrEqual =>
    simp only [value?, chained_sorted]
    rfl
  | not =>
    obtain ⟨a, rfl⟩ := List.length_eq_one_iff.1 (beq_iff_eq.1 harity)
    simp only [List.map_cons, List.map_nil, value?, truthy_sorted]
    rfl
  | all =>
    simp only [value?, List.all_map, truthy_comp_sorted]
    rfl
  | any =>
    simp only [value?, List.any_map, truthy_comp_sorted]
    rfl
  | count =>
    simp only [value?, List.countP_map, truthy_comp_sorted]
    rfl
  | log =>
    obtain ⟨a, rfl⟩ := List.length_eq_one_iff.1 (beq_iff_eq.1 harity)
    rfl
  | choose =>
    obtain ⟨a, b, c, rfl⟩ := List.length_eq_three.1 (beq_iff_eq.1 harity)
    simp only [List.map_cons, List.map_nil, value?, truthy_sorted, ← apply_ite sorted]
    rfl
  | add | multiply =>
    rw [value?, value?, accumulate_sorted]
    exact (GivesScalar.bind fun total => .ofArithmetic total).sorted_map.symm
  | modulo =>
    obtain ⟨a, b, rfl⟩ := List.length_eq_two.1 (beq_iff_eq.1 harity)
    rw [List.map_cons, List.map_cons, List.map_nil, value?, value?, remainder_sorted]
    exact (GivesScalar.remainder a b).sorted_map.symm
  | subtract =>
    match operands, harity with
    | [a], _ =>
      rw [List.map_cons, List.map_nil, value?, value?, asNumber_sorted]
      exact (GivesScalar.bind fun x => .ofArithmetic _).sorted_map.symm
    | [a, b], _ =>
      rw [List.map_cons, List.map_cons, List.map_nil, value?, value?, asNumber_sorted, asNumber_sorted]
      exact (GivesScalar.bind fun x => .bind fun y => .ofArithmetic _).sorted_map.symm
  | divide =>
    match operands, harity with
    | [a], _ => rfl
    | [a, b], _ =>
      rw [List.map_cons, List.map_cons, List.map_nil, value?, value?, quotient_sorted]
      exact (GivesScalar.quotient a b).sorted_map.symm
  | min | max =>
    cases operands with
    | nil => cases harity
    | cons first others => exact extremum_sorted _ first others
  | var =>
    match operands, harity with
    | [path], _ => exact lookup_sorted path .null data
    | [path, missing], _ => exact lookup_sorted path missing data
  | contains =>
    obtain ⟨a, b, rfl⟩ := List.length_eq_two.1 (beq_iff_eq.1 harity)
    simp only [List.map_cons, List.map_nil, value?, isMember_sorted]
    cases isMember a b <;> rfl
  | merge =>
    rw [value?, value?, merged_sorted, ← sorted_arr]
    rfl
  | concat => exact absurd rfl hop
  | someItem | everyItem | noItem | map | filter | reduce | apply =>
    exact congrArg (fun n => Except.error (RuleError.operandCount _ n)) (List.length_map sorted)

theorem result_sorted {op : Operator} (hop : op ≠ .concat) (operands : List Json) (data : Json) :
    op.result (operands.map sorted) data.sorted = sorted <$> op.result operands data := by
  unfold result
  rw [List.length_map]
  split
  · rfl
  · split
    · rfl
    · rename_i harity _
      exact value?_sorted hop (by simpa using harity) data

end Operator

/-! ## Trees -/

/-- Two values are the same once sorted. -/
def Json.Alike (v w : Json) : Prop := v.sorted = w.sorted

namespace Json

variable {v v' w w' : Json} {xs ys : List Json}

theorem Alike.truthy (h : v.Alike w) : v.truthy = w.truthy := by
  rw [← truthy_sorted v, h, truthy_sorted]

theorem forall₂_alike : List.Forall₂ Alike xs ys ↔ xs.map sorted = ys.map sorted := by
  rw [← List.forall₂_eq_eq_eq, List.forall₂_map_left_iff, List.forall₂_map_right_iff]
  rfl

theorem alike_arr (h : List.Forall₂ Alike xs ys) : (arr xs).Alike (.arr ys) := by
  rw [Alike, sorted_arr, sorted_arr, forall₂_alike.1 h]

theorem Alike.items (h : v.Alike w) : List.Forall₂ Alike v.items w.items := by
  have hitems : ∀ v : Json, v.items.map sorted = v.sorted.items := by
    intro v
    cases v with
    | arr items =>
      rw [sorted_arr]
      rfl
    | _ => rfl
  rw [forall₂_alike, hitems, hitems, h]

theorem Alike.reduction (hv : v.Alike w) (hw : v'.Alike w') :
    (Json.reduction v v').Alike (Json.reduction w w') := by
  unfold Alike at hv hw ⊢
  rw [Json.reduction, Json.reduction, sorted_obj, sorted_obj]
  simp only [List.map_cons, List.map_nil, sortedField, hv, hw]

end Json

open Json

namespace Operator

variable {op : Operator} {xs ys : List Json} {d d' : Json}

theorem related_of_sorted_map {r r' : Result Json} (h : sorted <$> r = sorted <$> r') :
    Result.Related Alike r r' := by
  cases r with
  | error e =>
    have h' := Result.map_eq_error.1 h.symm
    rw [h']
    exact .error e
  | ok v =>
    cases r' with
    | error e => cases h
    | ok w => exact .ok (Except.ok.inj h)

theorem result_related (hop : op ≠ .concat) (h : List.Forall₂ Alike xs ys) (hd : d.Alike d') :
    Result.Related Alike (op.result xs d) (op.result ys d') := by
  refine related_of_sorted_map ?_
  rw [← result_sorted hop, ← result_sorted hop, forall₂_alike.1 h, hd]

theorem perform_related (hconcat : op ≠ .concat) (happly : op ≠ .apply)
    (h : List.Forall₂ Alike xs ys) (hd : d.Alike d') :
    Program.Related Alike (op.perform xs d) (op.perform ys d') := by
  have hresult := result_related hconcat h hd
  unfold perform
  split
  · exact absurd rfl happly
  · revert hresult
    generalize Operator.log.result xs d = r, Operator.log.result ys d' = r'
    rintro (h | e)
    · exact .note _ _ (.done h)
    · exact .fail e
  · exact .ofResult hresult

theorem iterate_related (op : Operator) {step step' : Json → Program Json}
    (hstep : ∀ v w, v.Alike w → Program.Related Alike (step v) (step' w))
    (h : List.Forall₂ Alike xs ys) {initial initial' : Option Json}
    (hinitial : (initial.getD (.ofInt 0)).Alike (initial'.getD (.ofInt 0))) :
    Program.Related Alike (op.iterate step xs initial) (op.iterate step' ys initial') := by
  have htest : ∀ v w, v.Alike w →
      Program.Related Eq (Json.truthy <$> step v) (Json.truthy <$> step' w) :=
    fun v w hvw => (hstep v w hvw).map fun _ _ => Alike.truthy
  have hbool : ∀ (f : Bool → Bool) (b b' : Bool), b = b' → (Json.bool (f b)).Alike (.bool (f b')) := by
    rintro f b _ rfl
    rfl
  cases op with
  | someItem => exact (Program.Related.anyM h htest).map (hbool id)
  | everyItem => exact (Program.Related.allM h htest).map (hbool id)
  | noItem => exact (Program.Related.anyM h htest).map (hbool Bool.not)
  | map => exact (Program.Related.mapM h hstep).map fun _ _ => alike_arr
  | filter => exact (Program.Related.filterM h htest).map fun _ _ => alike_arr
  | reduce => exact .foldlM h (fun _ _ _ _ hacc hitem => hstep _ _ (hitem.reduction hacc)) hinitial
  | _ => exact .fail _

end Operator

namespace Node

theorem evaluateAll_related {args : List Node} {d d' : Json}
    (h : ∀ n ∈ args, Program.Related Alike (n.evaluate d) (n.evaluate d')) :
    Program.Related (List.Forall₂ Alike) (evaluateAll args d) (evaluateAll args d') := by
  induction args with
  | nil => exact .done .nil
  | cons n rest ih =>
    obtain ⟨hn, hrest⟩ := List.forall_mem_cons.1 h
    rw [evaluateAll, evaluateAll]
    exact hn.bind fun v w hvw => (ih hrest).bind fun vs ws hvws => .done (.cons hvw hvws)

/-- A tree without concatenations and calls ends alike on data that are the same once sorted. -/
theorem evaluate_related {n : Node} (hconcat : n.Avoids .concat) (happly : n.Avoids .apply)
    {d d' : Json} (hd : d.Alike d') : Program.Related Alike (n.evaluate d) (n.evaluate d') := by
  -- the data is general: a predicate runs on items
  induction n using Node.induction generalizing d d' with
  | literal | empty => exact .done rfl
  | operation op args ih =>
    have hop : op ≠ .concat := by
      rintro rfl
      exact hconcat _ _ (.self _)
    have hop' : op ≠ .apply := by
      rintro rfl
      exact happly _ _ (.self _)
    have hargs := evaluateAll_related fun n hn => ih n hn (fun b vs h => hconcat b vs (.arg hn h))
      (fun b vs h => happly b vs (.arg hn h)) hd
    rw [evaluate, evaluate]
    exact hargs.bind fun xs ys h => .note _ _ (Operator.perform_related hop hop' h hd)
  | iteration op source predicate initial ihs ihp ihi =>
    have hsource := ihs (fun b vs h => hconcat b vs (.source h)) (fun b vs h => happly b vs (.source h)) hd
    have hpredicate : ∀ v w, v.Alike w →
        Program.Related Alike (predicate.evaluate v) (predicate.evaluate w) := fun v w =>
      ihp (fun b vs h => hconcat true vs (.predicate h)) fun b vs h => happly true vs (.predicate h)
    cases initial with
    | none =>
      rw [evaluate, evaluate]
      exact hsource.bind fun v w hvw => Operator.iterate_related op hpredicate hvw.items rfl
    | some initial =>
      have hinitial := ihi initial rfl (fun b vs h => hconcat b vs (.initial h))
        (fun b vs h => happly b vs (.initial h)) hd
      rw [evaluate, evaluate]
      exact hsource.bind fun v w hvw => hinitial.bind fun i j hij =>
        Operator.iterate_related op hpredicate hvw.items hij

end Node
end JsonRules
