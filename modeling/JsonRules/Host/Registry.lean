import JsonRules.Run.Course
import Std.Data.TreeMap

/-!
# Host functions

A rule calls functions of its host by name. A `Registry` holds them, the last registration of a name
replacing the one before. `Registry.host` answers the calls of a run: a synchronous run refuses
asynchronous functions, an asynchronous one waits for them.

`Registry.toSync` registers every function as a synchronous one that does the same.
`Registry.pausesBefore` puts back into a journal what is lost by that, and `Registry.firstAsync?` is
the first function in a journal that pauses belong to.

A registry is cloned now and then, and functions are registered on any of the copies. `Registry.copies`
are the registries that a history leads to, `Registry.logs` what was registered on each of them, and
`Registry.last?` is the function that a log has last under a name.
-/

namespace JsonRules

/-- How a host function runs. An asynchronous one pauses some number of times first. -/
inductive Pace where
  | sync
  | async (pauses : Nat)
deriving DecidableEq, Repr

/-- What a host function answers: a value or a failure in its own words. Rules that it evaluates
itself record notes. -/
structure Answer (σ : Type) where
  result : Except String Json
  state : σ
  notes : List Note := []

/-- A host function over states of the host. -/
structure HostFunction (σ : Type) where
  pace : Pace
  body : List Json → σ → Answer σ

namespace HostFunction

variable {σ : Type}

def isAsync (f : HostFunction σ) : Bool :=
  match f.pace with
  | .sync => false
  | .async _ => true

/-- How often a function pauses before it runs. -/
def pauses (f : HostFunction σ) : Nat :=
  match f.pace with
  | .sync => 0
  | .async n => n

theorem pauses_of_not_isAsync {f : HostFunction σ} (h : f.isAsync = false) : f.pauses = 0 := by
  unfold isAsync at h
  unfold pauses
  split at h <;> simp_all

/-- A call: the pauses, then the call itself, then the notes. -/
def call (f : HostFunction σ) (name : String) (args : List Json) (s : σ) :
    Course σ (Result Json) :=
  let a := f.body args s
  .pausing name s (.ended ⟨a.result.mapError .host, a.state, .call name args :: a.notes.map .note⟩)
    f.pauses

end HostFunction

/-- The functions that rules may call, by name. -/
structure Registry (σ : Type) where
  entries : Std.TreeMap String (HostFunction σ)

namespace Registry

variable {σ : Type}

def empty : Registry σ := ⟨{}⟩

/-- Registers a function. An earlier one of the same name is replaced. -/
def register (r : Registry σ) (name : String) (f : HostFunction σ) : Registry σ :=
  ⟨r.entries.insert name f⟩

def get? (r : Registry σ) (name : String) : Option (HostFunction σ) := r.entries[name]?

def contains (r : Registry σ) (name : String) : Bool := r.entries.contains name

def size (r : Registry σ) : Nat := r.entries.size

def isEmpty (r : Registry σ) : Bool := r.entries.isEmpty

/-- The registered names in ascending order. -/
def names (r : Registry σ) : List String := r.entries.keys

/-- Whether some function is asynchronous. -/
def hasAsync (r : Registry σ) : Bool := r.entries.values.any HostFunction.isAsync

/-- The mode of an evaluation that goes by its registry. -/
def mode (r : Registry σ) : Mode := if r.hasAsync then .async else .sync

/-- Whether a run in a mode may call a function of a name. -/
def accepts (r : Registry σ) (mode : Mode) (name : String) : Bool :=
  (r.get? name).any fun f => mode == .async || !f.isAsync

/-- The functions record nothing beyond being called. -/
def Quiet (r : Registry σ) : Prop :=
  ∀ name f, r.get? name = some f → ∀ args s, (f.body args s).notes = []

/-- The answers to the calls of a run, pauses and all. -/
def invoke (r : Registry σ) (mode : Mode) : PausingHost σ := fun name args s =>
  match r.get? name with
  | none => .ended ⟨.error (.functionNotRegistered name), s, []⟩
  | some f =>
    if mode = .sync ∧ f.isAsync then .ended ⟨.error (.asyncFunctionInSyncRun name), s, []⟩
    else f.call name args s

/-- The answers to the calls of a run, where each is waited for. -/
def host (r : Registry σ) (mode : Mode) : Host σ := fun name args s =>
  (r.invoke mode name args s).drain

theorem host_eq (r : Registry σ) (mode : Mode) (name : String) (args : List Json) (s : σ) :
    r.host mode name args s =
      match r.get? name with
      | none => ⟨.error (.functionNotRegistered name), s, []⟩
      | some f =>
        if mode = .sync ∧ f.isAsync then ⟨.error (.asyncFunctionInSyncRun name), s, []⟩
        else
          let a := f.body args s
          ⟨a.result.mapError .host, a.state,
            List.replicate f.pauses (.wait name) ++ .call name args :: a.notes.map .note⟩ := by
  unfold host invoke
  cases r.get? name with
  | none => rfl
  | some f =>
    by_cases h : mode = .sync ∧ f.isAsync
    · simp only [if_pos h, Course.drain]
    · simp only [if_neg h, HostFunction.call, Course.drain_pausing, Course.drain]

/-- A synchronous run never pauses: it refuses the functions that would. -/
theorem pauses_invoke_sync (r : Registry σ) (name : String) (args : List Json) (s : σ) :
    (r.invoke .sync name args s).pauses = 0 := by
  unfold invoke
  cases r.get? name with
  | none => rfl
  | some f =>
    by_cases h : f.isAsync
    · simp [h, Course.pauses]
    · simp [h, HostFunction.call, Course.pauses, HostFunction.pauses_of_not_isAsync]

/-- What a run leaves behind in a mode. -/
theorem finish_course {α : Type} (r : Registry σ) (mode : Mode) (p : Program α) (s : σ) :
    (p.course (r.invoke mode) s).finish mode = p.run (r.host mode) s := by
  cases mode with
  | async => exact p.drain_course _ s
  | sync =>
    rw [Course.finish_eq_drain _ (p.pauses_course _ r.pauses_invoke_sync s)]
    exact p.drain_course _ s

end Registry

/-! ## Registries without pauses -/

/-- The function that does the same without a pause. -/
def HostFunction.toSync {σ : Type} (f : HostFunction σ) : HostFunction σ := { f with pace := .sync }

theorem HostFunction.toSync_of_not_isAsync {σ : Type} {f : HostFunction σ}
    (h : f.isAsync = false) : f.toSync = f := by
  obtain ⟨pace, body⟩ := f
  cases pace with
  | sync => rfl
  | async n => cases h

namespace Registry

variable {σ : Type}

/-- All functions made synchronous. -/
def toSync (r : Registry σ) : Registry σ := ⟨r.entries.map fun _ f => f.toSync⟩

/-- Whether a name is that of an asynchronous function. -/
def isAsync (r : Registry σ) (name : String) : Bool := (r.get? name).any HostFunction.isAsync

/-- An event with the pauses that go before it: those of its function before a call. -/
def pausesBefore (r : Registry σ) : Event → List Event
  | .call name args =>
    List.replicate (((r.get? name).map HostFunction.pauses).getD 0) (.wait name) ++
      [.call name args]
  | e => [e]

/-- The first asynchronous function that a journal has a call of. -/
def firstAsync? (r : Registry σ) (journal : List Event) : Option String :=
  (journal.filterMap Event.called?).find? r.isAsync

/-! ## Histories of registries -/

/-- What happens to the copies of a registry, which are counted from zero. -/
inductive Change (σ : Type) where
  /-- A function, synchronous or not, is registered on a copy. To register it in place and to build a
  registry with it from the copy come to the same, as the copy is given up for what is built. -/
  | register (copy : Nat) (name : String) (f : HostFunction σ)
  /-- A copy is cloned. The clone is the last copy from then on. -/
  | clone (copy : Nat)

/-- The copies after a change, where `register` says what registering a function makes of one. Nothing
happens to a copy that is not there. -/
def Change.apply {α : Type} (register : α → String → HostFunction σ → α) (copies : List α) :
    Change σ → List α
  | .register i name f => copies.modify i (register · name f)
  | .clone i => copies ++ copies[i]?.toList

/-- The copies of a registry that was empty at first. -/
def copies (history : List (Change σ)) : List (Registry σ) :=
  history.foldl (Change.apply register) [empty]

/-- What was registered on each copy, on a clone also what was registered on its original before it was
cloned. The latest comes last. -/
def logs (history : List (Change σ)) : List (List (String × HostFunction σ)) :=
  history.foldl (Change.apply fun log name f => log ++ [(name, f)]) [[]]

/-- The function of the last registration of a name. -/
def last? (log : List (String × HostFunction σ)) (name : String) : Option (HostFunction σ) :=
  (log.filter (·.1 == name)).getLast?.map Prod.snd

end Registry
end JsonRules
