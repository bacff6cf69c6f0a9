import JsonRules.Run.Program
import Mathlib.Data.List.Forall2

/-!
# Programs against each other

`Program.Related R p q` says of two programs without calls that they fail with one error or give values
that `R` relates, whatever they note. It goes through `bind` and through the loops over related lists
(`Related.bind`, `Related.mapM` and so on), and with any hosts the two runs have related results
(`Related.run`).

`Program.untraced` takes the notes that only trace out of a program. What is left runs to the same
result, state and effects with every host (`run_alike_untraced`), so two programs are compared up to
traces by what is left of them (`run_alike`). Going on and searching commute with taking traces out.
-/

namespace JsonRules

/-! ## Programs that end alike -/

/-- Two results are one error or values that are related. -/
inductive Result.Related {α β : Type} (R : α → β → Prop) : Result α → Result β → Prop where
  | ok {a : α} {b : β} (h : R a b) : Result.Related R (.ok a) (.ok b)
  | error (e : RuleError) : Result.Related R (.error e) (.error e)

theorem Result.Related.imp {α β : Type} {R S : α → β → Prop} {x : Result α} {y : Result β}
    (h : Result.Related R x y) (himp : ∀ a b, R a b → S a b) : Result.Related S x y := by
  cases h with
  | ok h => exact .ok (himp _ _ h)
  | error e => exact .error e

namespace Program

/-- Two programs without calls end with one error or with values that are related. -/
inductive Related {α β : Type} (R : α → β → Prop) : Program α → Program β → Prop where
  | done {a : α} {b : β} (h : R a b) : Related R (.done a) (.done b)
  | fail (e : RuleError) : Related R (.fail e) (.fail e)
  | note {p : Program α} {q : Program β} (n n' : Note) (h : Related R p q) :
      Related R (.note n p) (.note n' q)

namespace Related

variable {α β γ δ : Type} {R : α → β → Prop} {S : γ → δ → Prop}

theorem ofResult {x : Result α} {y : Result β} (h : Result.Related R x y) :
    Related R (.ofResult x) (.ofResult y) := by
  cases h with
  | ok h => exact .done h
  | error e => exact .fail e

theorem bind {p : Program α} {q : Program β} {f : α → Program γ} {g : β → Program δ}
    (h : Related R p q) (hfg : ∀ a b, R a b → Related S (f a) (g b)) :
    Related S (p.bind f) (q.bind g) := by
  induction h with
  | done h => exact hfg _ _ h
  | fail e => exact .fail e
  | note n n' _ ih => exact .note n n' ih

theorem map {p : Program α} {q : Program β} {f : α → γ} {g : β → δ} (h : Related R p q)
    (hfg : ∀ a b, R a b → S (f a) (g b)) : Related S (f <$> p) (g <$> q) :=
  h.bind fun a b hab => .done (hfg a b hab)

/-! ### Loops -/

variable {as : List α} {bs : List β} {f : α → Program γ} {g : β → Program δ}

theorem mapM (h : List.Forall₂ R as bs) (hfg : ∀ a b, R a b → Related S (f a) (g b)) :
    Related (List.Forall₂ S) (as.mapM f) (bs.mapM g) := by
  induction h with
  | nil => exact .done .nil
  | cons hab _ ih =>
    rw [List.mapM_cons, List.mapM_cons]
    exact (hfg _ _ hab).bind fun c d hcd => ih.bind fun cs ds hcds => .done (.cons hcd hcds)

theorem foldlM {f : γ → α → Program γ} {g : δ → β → Program δ} {c : γ} {d : δ}
    (h : List.Forall₂ R as bs) (hfg : ∀ c d a b, S c d → R a b → Related S (f c a) (g d b))
    (hcd : S c d) : Related S (as.foldlM f c) (bs.foldlM g d) := by
  induction h generalizing c d with
  | nil => exact .done hcd
  | cons hab _ ih =>
    rw [List.foldlM_cons, List.foldlM_cons]
    exact (hfg _ _ _ _ hcd hab).bind fun c d hcd => ih hcd

section
variable {f : α → Program Bool} {g : β → Program Bool}

theorem anyM (h : List.Forall₂ R as bs) (hfg : ∀ a b, R a b → Related Eq (f a) (g b)) :
    Related Eq (as.anyM f) (bs.anyM g) := by
  induction h with
  | nil => exact .done rfl
  | cons hab _ ih =>
    rw [List.anyM_cons, List.anyM_cons]
    refine (hfg _ _ hab).bind ?_
    rintro found _ rfl
    cases found with
    | true => exact .done rfl
    | false => exact ih

theorem allM (h : List.Forall₂ R as bs) (hfg : ∀ a b, R a b → Related Eq (f a) (g b)) :
    Related Eq (as.allM f) (bs.allM g) := by
  induction h with
  | nil => exact .done rfl
  | cons hab _ ih =>
    rw [List.allM_cons, List.allM_cons]
    refine (hfg _ _ hab).bind ?_
    rintro holds _ rfl
    cases holds with
    | true => exact ih
    | false => exact .done rfl

theorem filterAuxM {kept : List α} {kept' : List β} (h : List.Forall₂ R as bs)
    (hfg : ∀ a b, R a b → Related Eq (f a) (g b)) (hkept : List.Forall₂ R kept kept') :
    Related (List.Forall₂ R) (as.filterAuxM f kept) (bs.filterAuxM g kept') := by
  induction h generalizing kept kept' with
  | nil => exact .done hkept
  | cons hab _ ih =>
    refine (hfg _ _ hab).bind ?_
    rintro keep _ rfl
    cases keep with
    | true => exact ih (.cons hab hkept)
    | false => exact ih hkept

theorem filterM (h : List.Forall₂ R as bs) (hfg : ∀ a b, R a b → Related Eq (f a) (g b)) :
    Related (List.Forall₂ R) (as.filterM f) (bs.filterM g) :=
  (filterAuxM h hfg .nil).bind fun _ _ hkept => .done (List.rel_reverse hkept)

end

/-! ### Runs -/

theorem run {σ τ : Type} {p : Program α} {q : Program β} (h : Related R p q) (host : Host σ)
    (host' : Host τ) (s : σ) (t : τ) :
    Result.Related R (p.run host s).result (q.run host' t).result := by
  induction h with
  | done h => exact .ok h
  | fail e => exact .error e
  | note n n' _ ih => exact ih

end Related
end Program

/-! ## Runs up to traces -/

variable {σ α β : Type}

/-- Two trails differ by traces only. -/
structure Trail.Alike (t t' : Trail σ α) : Prop where
  result : t'.result = t.result
  state : t'.state = t.state
  effects : t'.effects = t.effects

theorem Trail.Alike.symm {t t' : Trail σ α} (h : t.Alike t') : t'.Alike t :=
  ⟨h.result.symm, h.state.symm, h.effects.symm⟩

theorem Trail.Alike.trans {t t' t'' : Trail σ α} (h : t.Alike t') (h' : t'.Alike t'') : t.Alike t'' :=
  ⟨h'.result.trans h.result, h'.state.trans h.state, h'.effects.trans h.effects⟩

theorem Trail.effects_append (result : α) (state : σ) (earlier later : List Event) :
    (⟨result, state, earlier ++ later⟩ : Trail σ α).effects =
      earlier.filter (!·.isTrace) ++ later.filter (!·.isTrace) :=
  List.filter_append ..

namespace Program

/-- A program without the notes that only trace. -/
def untraced : Program α → Program α
  | .done a => .done a
  | .fail e => .fail e
  | .note n rest => if n.isTrace then rest.untraced else .note n rest.untraced
  | .call name args rest => .call name args fun v => (rest v).untraced

theorem untraced_note_of_isTrace {n : Note} (h : n.isTrace = true) (p : Program α) :
    (note n p).untraced = p.untraced := by
  rw [untraced, if_pos h]

theorem untraced_bind (p : Program α) (f : α → Program β) :
    (p.bind f).untraced = p.untraced.bind fun a => (f a).untraced := by
  induction p with
  | done | fail => rfl
  | note n rest ih =>
    simp only [bind, untraced, ih]
    split <;> rfl
  | call name args rest ih => simp only [bind, untraced, ih]

theorem untraced_anyM (test : α → Program Bool) (items : List α) :
    (items.anyM test).untraced = items.anyM fun v => (test v).untraced := by
  induction items with
  | nil => rfl
  | cons v rest ih =>
    rw [List.anyM_cons, List.anyM_cons, bind_eq, bind_eq, untraced_bind]
    refine congrArg _ (funext fun found => ?_)
    cases found with
    | false => exact ih
    | true => rfl

theorem untraced_foldlM (step : β → α → Program β) (b : β) (items : List α) :
    (items.foldlM step b).untraced = items.foldlM (fun b v => (step b v).untraced) b := by
  induction items generalizing b with
  | nil => rfl
  | cons v rest ih =>
    rw [List.foldlM_cons, List.foldlM_cons, bind_eq, bind_eq, untraced_bind]
    exact congrArg _ (funext ih)

theorem untraced_ofResult (x : Result α) : (ofResult x).untraced = ofResult x := by
  cases x <;> rfl

theorem foldlM_ofResult (f : β → α → Result β) (b : β) (items : List α) :
    items.foldlM (fun b v => ofResult (f b v)) b = ofResult (items.foldlM f b) := by
  induction items generalizing b with
  | nil => rfl
  | cons v rest ih =>
    rw [List.foldlM_cons, List.foldlM_cons]
    cases f b v with
    | error e => rfl
    | ok c => exact ih c

/-- A run leaves the same behind without traces. -/
theorem run_alike_untraced (host : Host σ) (p : Program α) (s : σ) :
    (p.run host s).Alike (p.untraced.run host s) := by
  induction p generalizing s with
  | done | fail => exact ⟨rfl, rfl, rfl⟩
  | note n rest ih =>
    have hrest := ih s
    by_cases hn : n.isTrace = true
    · have heffects : ((note n rest).run host s).effects = (rest.run host s).effects :=
        List.filter_cons_of_neg (by simp [Event.isTrace, hn])
      rw [untraced_note_of_isTrace hn]
      exact ⟨hrest.result, hrest.state, hrest.effects.trans heffects.symm⟩
    · have heffects : ∀ p : Program α,
          ((note n p).run host s).effects = .note n :: (p.run host s).effects :=
        fun p => List.filter_cons_of_pos (by simp [Event.isTrace, hn])
      rw [untraced, if_neg hn]
      refine ⟨hrest.result, hrest.state, ?_⟩
      rw [heffects, heffects, hrest.effects]
  | call name args rest ih =>
    cases h : (host name args s).result with
    | error e =>
      rw [untraced, run_call_of_error h, run_call_of_error h]
      exact ⟨rfl, rfl, rfl⟩
    | ok v =>
      have hrest := ih v (host name args s).state
      rw [untraced, run_call_of_ok h, run_call_of_ok h]
      refine ⟨hrest.result, hrest.state, ?_⟩
      rw [Trail.effects_append, Trail.effects_append]
      exact congrArg _ hrest.effects

/-- Programs with the same rest run alike. -/
theorem run_alike {p q : Program α} (h : p.untraced = q.untraced) (host : Host σ) (s : σ) :
    (p.run host s).Alike (q.run host s) := by
  have hp := run_alike_untraced host p s
  have hq := run_alike_untraced host q s
  rw [← h] at hq
  exact hp.trans hq.symm

end Program
end JsonRules
