import JsonRules.Engine
import JsonRules.Proofs.Rule.Collect
import JsonRules.Proofs.Rule.Offence
import JsonRules.Rule.Position

/-!
# The limit on depths as a threshold

Below the threshold of a rule the first position that is too deep comes before any flaw
(`compile_of_lt_threshold`). From the threshold on no limit is the cause of an error
(`failure?_compile_of_threshold_le`), and as a greater limit gives what a lower one gives wherever that is
not refused for its depth (`compile_of_le`), all limits from there on give the same. The notes on the way are
the same too (`notes_of_le`).

Engines differ in their limits on depths only. A greater one makes no difference to the program of a rule
that the lower one does not refuse for its depth (`program_of_le`), and so none to any evaluation.
-/

namespace JsonRules

/-! ## Rules -/

namespace Rule

variable {limit limit' depth : Nat} {rule : Json} {p : Position} {list : List Position}

/-! ### Positions -/

theorem offence?_of_lt (h : limit < p.depth) : offence? limit p = some (.depthLimitExceeded limit) :=
  if_pos h

/-- At a position that is not too deep, what is wrong does not depend on the limit. -/
theorem offence?_of_le (h : p.depth ≤ limit) : offence? limit p = flaw? p := by
  unfold flaw? offence?
  rw [if_neg (Nat.not_lt.2 h), if_neg (Nat.lt_irrefl p.depth)]

theorem flaw?_cases {err : RuleError} (h : flaw? p = some err) :
    (∃ name, err = .unknownOperator name) ∨ ∃ op count, err = .operandCount op count := by
  unfold flaw? offence? at h
  rw [if_neg (Nat.lt_irrefl p.depth)] at h
  split at h
  · split at h
    · exact .inl ⟨_, (Option.some.inj h).symm⟩
    · split at h
      · cases h
      · exact .inr ⟨_, _, (Option.some.inj h).symm⟩
  · cases h

theorem findSome?_offence?_of_lt (h : limit < depthToFlaw list) :
    list.findSome? (offence? limit) = some (.depthLimitExceeded limit) := by
  induction list with
  | nil => exact absurd h (Nat.not_lt_zero limit)
  | cons p rest ih =>
    rw [List.findSome?_cons]
    by_cases hdeep : limit < p.depth
    · rw [offence?_of_lt hdeep]
    · have hle : p.depth ≤ limit := Nat.not_lt.1 hdeep
      rw [offence?_of_le hle]
      unfold depthToFlaw at h
      cases hflaw : flaw? p with
      | some err =>
        simp only [hflaw, Option.isSome_some, if_true] at h
        exact absurd h hdeep
      | none =>
        simp only [hflaw, Option.isSome_none, Bool.false_eq_true, if_false] at h
        exact ih (by omega)

theorem findSome?_offence?_of_le (h : depthToFlaw list ≤ limit) :
    list.findSome? (offence? limit) = list.findSome? flaw? := by
  induction list with
  | nil => rfl
  | cons p rest ih =>
    unfold depthToFlaw at h
    cases hflaw : flaw? p with
    | some err =>
      simp only [hflaw, Option.isSome_some, if_true] at h
      rw [List.findSome?_cons, List.findSome?_cons, offence?_of_le h, hflaw]
    | none =>
      simp only [hflaw, Option.isSome_none, Bool.false_eq_true, if_false] at h
      rw [List.findSome?_cons, List.findSome?_cons, offence?_of_le (by omega), hflaw]
      exact ih (by omega)

/-! ### Errors -/

theorem compile_of_lt_threshold (h : limit < threshold rule) :
    compile limit rule = .error (.depthLimitExceeded limit) := by
  rw [← Result.failure?_eq_some]
  exact (failure?_compileAt rule).trans (findSome?_offence?_of_lt h)

theorem failure?_compile_of_threshold_le (h : threshold rule ≤ limit) :
    (compile limit rule).failure? = (positions rule).findSome? flaw? :=
  (failure?_compileAt rule).trans (findSome?_offence?_of_le h)

/-- From the threshold on a rule compiles, or has a flaw. -/
theorem compile_cases (h : threshold rule ≤ limit) :
    (∃ tree, compile limit rule = .ok tree) ∨
    (∃ name, compile limit rule = .error (.unknownOperator name)) ∨
    ∃ op count, compile limit rule = .error (.operandCount op count) := by
  have hfailure := failure?_compile_of_threshold_le h
  cases hcompile : compile limit rule with
  | ok tree => exact .inl ⟨tree, rfl⟩
  | error err =>
    rw [hcompile] at hfailure
    obtain ⟨p, -, hp⟩ := List.exists_of_findSome?_eq_some hfailure.symm
    rcases flaw?_cases hp with ⟨name, rfl⟩ | ⟨op, count, rfl⟩
    · exact .inr (.inl ⟨name, rfl⟩)
    · exact .inr (.inr ⟨op, count, rfl⟩)

theorem threshold_le_of_ne (h : compile limit rule ≠ .error (.depthLimitExceeded limit)) :
    threshold rule ≤ limit :=
  Nat.not_lt.1 fun hlt => h (compile_of_lt_threshold hlt)

/-! ### Greater limits -/

/-- A step is refused for its depth, or a greater limit gives the same. -/
def Stable {α : Type} (limit : Nat) (lower greater : Result α) : Prop :=
  lower = .error (.depthLimitExceeded limit) ∨ greater = lower

theorem Stable.bind {α β : Type} {lower greater : Result α} {f g : α → Result β}
    (h : Stable limit lower greater) (hf : ∀ a, Stable limit (f a) (g a)) :
    Stable limit (lower >>= f) (greater >>= g) := by
  rcases h with rfl | rfl
  · exact .inl rfl
  · cases greater with
    | error err => exact .inr rfl
    | ok a => exact hf a

theorem Stable.bind_pure {α β : Type} {lower greater : Result α} (h : Stable limit lower greater)
    (f : α → β) : Stable limit (lower >>= fun a => pure (f a)) (greater >>= fun a => pure (f a)) :=
  h.bind fun _ => .inr rfl

theorem stable_leaf (h : limit ≤ limit') (n : Node) :
    Stable limit (leaf limit depth n) (leaf limit' depth n) := by
  unfold leaf
  by_cases hdeep : limit < depth
  · exact .inl (if_pos hdeep)
  · right
    rw [if_neg hdeep, if_neg (by omega)]

theorem stable_operatorAt (h : limit ≤ limit') (name : String) (count : Nat) :
    Stable limit (operatorAt limit depth name count) (operatorAt limit' depth name count) := by
  unfold operatorAt
  by_cases hdeep : limit < depth
  · exact .inl (if_pos hdeep)
  · right
    rw [if_neg hdeep, if_neg (by omega)]

theorem stable_compileAll {items : List Json}
    (h : ∀ a ∈ items, Stable limit (compileAt limit depth a) (compileAt limit' depth a)) :
    Stable limit (compileAll limit depth items) (compileAll limit' depth items) := by
  induction items with
  | nil => exact .inr rfl
  | cons a rest ih =>
    have hrest := ih fun b hb => h b (List.mem_cons_of_mem a hb)
    rw [compileAll, compileAll]
    exact (h a List.mem_cons_self).bind fun n => hrest.bind_pure (n :: ·)

theorem stable_compileAt (h : limit ≤ limit') (rule : Json) :
    Stable limit (compileAt limit depth rule) (compileAt limit' depth rule) := by
  induction rule using Rule.induction generalizing depth with
  | literal v hv =>
    rw [compileAt_literal hv, compileAt_literal hv]
    exact stable_leaf h _
  | empty => exact stable_leaf h .empty
  | operation name v others ih =>
    have hargs : Stable limit (compileAll limit (depth + 1) (arguments v))
        (compileAll limit' (depth + 1) (arguments v)) :=
      stable_compileAll fun a ha => ih a ha
    rw [compileAt_operation, compileAt_operation]
    -- the operator is checked first, so that no flaw of an argument comes before its depth
    exact (stable_operatorAt h name _).bind fun op => hargs.bind_pure (assemble op)

theorem compile_of_le (h : limit ≤ limit')
    (hcompile : compile limit rule ≠ .error (.depthLimitExceeded limit)) :
    compile limit' rule = compile limit rule :=
  (stable_compileAt h rule).resolve_left hcompile

theorem compile_of_threshold_le (h : threshold rule ≤ limit) :
    compile limit rule = compile (threshold rule) rule := by
  refine compile_of_le h fun hdeep => ?_
  rcases compile_cases (Nat.le_refl (threshold rule)) with ⟨tree, hc⟩ | ⟨name, hc⟩ | ⟨op, count, hc⟩ <;>
    cases hdeep.symm.trans hc

/-! ### Notes -/

theorem ignoredKeys?_of_le (h : limit ≤ limit') (hp : p.depth ≤ limit) :
    ignoredKeys? limit' p = ignoredKeys? limit p := by
  have hlower : ¬limit < p.depth := Nat.not_lt.2 hp
  have hgreater : ¬limit' < p.depth := Nat.not_lt.2 (Nat.le_trans hp h)
  unfold ignoredKeys?
  simp only [hlower, hgreater]

theorem notesOn_of_le (h : limit ≤ limit') (hlist : depthToFlaw list ≤ limit) :
    notesOn limit' list = notesOn limit list := by
  induction list with
  | nil => rfl
  | cons p rest ih =>
    unfold depthToFlaw at hlist
    have hp : p.depth ≤ limit := by
      split at hlist <;> omega
    rw [notesOn, notesOn, ignoredKeys?_of_le h hp, offence?_of_le hp, offence?_of_le (Nat.le_trans hp h)]
    split
    · rfl
    · rename_i hflaw
      rw [if_neg hflaw] at hlist
      rw [ih (by omega)]

theorem notes_of_le (h : limit ≤ limit') (hrule : threshold rule ≤ limit) :
    notes limit' rule = notes limit rule :=
  notesOn_of_le h hrule

end Rule

/-! ## Evaluations -/

namespace Engine

open Rule (threshold)

variable {e e' : Engine} {rule : Json}

theorem program_of_le (h : e.maxDepth ≤ e'.maxDepth)
    (hcompile : e.compile rule ≠ .error (.depthLimitExceeded e.maxDepth)) (data : Json) :
    e'.program rule data = e.program rule data := by
  have hsame : e'.compile rule = e.compile rule := Rule.compile_of_le h hcompile
  have hnotes : Rule.notes e'.maxDepth rule = Rule.notes e.maxDepth rule :=
    Rule.notes_of_le h (Rule.threshold_le_of_ne hcompile)
  unfold program
  rw [hsame, hnotes]

/-- Below the threshold of a rule every limit refuses it for its depth, and from there on all give the same
tree with the same paths and functions, or the same flaw. A limit that is raised changes nothing about the
evaluation of a rule that the lower one does not refuse for its depth: neither the result nor the state nor the
journal. -/
theorem compile_threshold (rule : Json) :
    (∀ limit, limit < threshold rule →
      Rule.collect limit rule = .error (.depthLimitExceeded limit)) ∧
    (∃ outcome : Result Compiled,
      ((∃ compiled, outcome = .ok compiled) ∨ (∃ name, outcome = .error (.unknownOperator name)) ∨
        ∃ op count, outcome = .error (.operandCount op count)) ∧
      ∀ limit, threshold rule ≤ limit → Rule.collect limit rule = outcome) ∧
    ∀ e e' : Engine, e.maxDepth ≤ e'.maxDepth →
      e.compile rule ≠ .error (.depthLimitExceeded e.maxDepth) →
      ∀ (σ : Type) (mode : Mode) (r : Registry σ) (data : Json) (s : σ),
        e'.evaluate mode r rule data s = e.evaluate mode r rule data s := by
  refine ⟨fun limit h => ?_, ⟨Rule.collect (threshold rule) rule, ?_, fun limit h => ?_⟩,
    fun e e' h hcompile σ mode r data s => ?_⟩
  · exact Rule.collect_eq_error.2 (Rule.compile_of_lt_threshold h)
  · rcases Rule.compile_cases (Nat.le_refl (threshold rule)) with
      ⟨tree, htree⟩ | ⟨name, hname⟩ | ⟨op, count, hcount⟩
    · exact .inl ⟨_, Rule.collect_of_compile htree⟩
    · exact .inr (.inl ⟨name, Rule.collect_eq_error.2 hname⟩)
    · exact .inr (.inr ⟨op, count, Rule.collect_eq_error.2 hcount⟩)
  · rw [Rule.collect_eq, Rule.collect_eq, Rule.compile_of_threshold_le h]
  · rw [evaluate_eq, evaluate_eq, program_of_le h hcompile]

/-- The flaw of a rule counts from the depth on that stands before it, not from that of what follows; and a
limit of two is as good as any other for a rule of two steps. -/
theorem compile_threshold_flaw :
    let flawed : Json := .obj [("and", .arr [.obj [("!", .obj [("!", .null)])], .obj [("xor", .null)],
      .obj [("!", .obj [("!", .obj [("!", .null)])])]])]
    let rule : Json := .obj [("!", .obj [("!", .bool true), ("note", .null)])]
    threshold flawed = 3 ∧ Rule.collect 2 flawed = .error (.depthLimitExceeded 2) ∧
      Rule.collect 5 flawed = .error (.unknownOperator "xor") ∧
      ∀ s : Nat, (Engine.mk 256).evaluate .async .empty rule .null s =
        (Engine.mk 2).evaluate .async .empty rule .null s := by
  intro flawed rule
  have hthreshold : threshold flawed = 3 := rfl
  obtain ⟨hbelow, ⟨outcome, -, habove⟩, -⟩ := compile_threshold flawed
  obtain ⟨-, -, hraised⟩ := compile_threshold rule
  refine ⟨hthreshold, hbelow 2 (by rw [hthreshold]; decide), ?_, fun s => ?_⟩
  · rw [habove 5 (by rw [hthreshold]; decide), ← habove 3 (Nat.le_of_eq hthreshold)]
    rfl
  · have hcompile : (Engine.mk 2).compile rule ≠ .error (.depthLimitExceeded 2) := by
      intro h
      cases h
    exact hraised ⟨2⟩ ⟨256⟩ (by decide) hcompile Nat .async .empty .null s

end Engine
end JsonRules
