import JsonRules.Proofs.List
import JsonRules.Settings.Layer
import Mathlib.Data.List.Basic

/-!
# What a layer changes

`Setting.seen?` looks at a place without looking into tables and lists. There a layer above a tree shows what it sets
itself, and otherwise the tree (`Setting.seen?_overlay`), as long as it gives a table wherever the place leads through
one.
-/

namespace JsonRules

variable {α : Type}

theorem lookup_alterEntry (name key : String) (f : Option α → α) (entries : List (String × α)) :
    (alterEntry name f entries).lookup key =
      if name = key then some (f (entries.lookup key)) else entries.lookup key := by
  induction entries with
  | nil =>
    rw [alterEntry, List.lookup_cons_eq_ite]
    rfl
  | cons entry rest ih =>
    obtain ⟨name', v⟩ := entry
    rw [alterEntry]
    by_cases hname : name' = name
    · rw [if_pos hname, List.lookup_cons_eq_ite, List.lookup_cons_eq_ite, hname]
      by_cases hkey : name = key
      · rw [if_pos hkey, if_pos hkey, if_pos hkey]
      · rw [if_neg hkey, if_neg hkey, if_neg hkey]
    · rw [if_neg hname, List.lookup_cons_eq_ite, List.lookup_cons_eq_ite, ih]
      by_cases hkey : name' = key
      · rw [if_pos hkey, if_pos hkey, if_neg fun h => hname (hkey.trans h.symm)]
      · rw [if_neg hkey, if_neg hkey]

namespace Setting

/-- A setting without what a table or list holds. -/
def outline : Setting → Setting
  | .list _ => .list []
  | .table _ => .table []
  | s => s

/-- What is seen at a place from outside. -/
def seen? (place : List String) (s : Setting) : Option Setting := (s.at? place).map outline

theorem asText?_outline (s : Setting) : s.outline.asText? = s.asText? := by cases s <;> rfl

theorem asCount?_outline (s : Setting) : s.outline.asCount? = s.asCount? := by cases s <;> rfl

theorem isTable_iff_outline {s : Setting} : s.IsTable ↔ s.outline = .table [] := by
  cases s <;> simp [IsTable, outline]

/-- From outside it does not matter what a setting is put above. -/
theorem outline_put (new : Setting) (place : List SettingStep) (old : Option Setting) :
    (put new place old).outline = (put new place none).outline := by
  rcases place with _ | ⟨_ | _, rest⟩
  · cases new <;> rfl
  · rfl
  · rfl

variable {new : Setting} {place : List SettingStep} {key name : String}

/-! ### One step -/

theorem seen?_key (key : String) (s : Setting) : seen? [key] s = (s.entries.lookup key).map outline := by
  rw [seen?, at?]
  cases s.entries.lookup key <;> rfl

theorem seen?_key_cons (key : String) (place : List String) (s : Setting) :
    seen? (key :: place) s = (s.entries.lookup key).bind (seen? place) := by
  rw [seen?, at?]
  cases s.entries.lookup key <;> rfl

theorem seen?_absent (key : String) : seen? [key] .absent = none := rfl

/-- A key that a setting is put under shows the setting, any other key what was there. -/
theorem seen?_put_key (new : Setting) (name : String) (rest : List SettingStep) (old : Option Setting) (key : String) :
    seen? [key] (put new (.key name :: rest) old) =
      (seen? [key] (put new (.key name :: rest) none)).or (seen? [key] (old.getD .absent)) := by
  have hput : ∀ old : Option Setting, seen? [key] (put new (.key name :: rest) old) =
      if name = key then some (put new rest none).outline else seen? [key] (old.getD .absent) := by
    intro old
    have hentries : (put new (.key name :: rest) old).entries =
        alterEntry name (put new rest) (old.getD .absent).entries := rfl
    rw [seen?_key, hentries, lookup_alterEntry, seen?_key]
    split
    · rw [Option.map_some, outline_put]
    · rfl
  rw [hput, hput none]
  by_cases h : name = key
  · rw [if_pos h, if_pos h, Option.some_or]
  · rw [if_neg h, if_neg h, Option.getD_none, seen?_absent, Option.none_or]

/-- So does a table that is merged into others. -/
theorem seen?_entriesAbove (entries old : List (String × Setting)) (key : String) :
    seen? [key] (.table (entriesAbove entries old)) =
      (seen? [key] (.table (entriesAbove entries []))).or (seen? [key] (.table old)) := by
  induction entries generalizing old with
  | nil => rfl
  | cons entry rest ih =>
    obtain ⟨name, s⟩ := entry
    have hstep : ∀ old, seen? [key] (.table (entriesAbove ((name, s) :: rest) old)) =
        (seen? [key] (.table (entriesAbove rest []))).or (seen? [key] (put s [.key name] (some (.table old)))) :=
      fun old => ih (put s [.key name] (some (.table old))).entries
    rw [hstep old, hstep [], seen?_put_key s name [] (some (.table old)), seen?_put_key s name [] (some (.table [])),
      Option.or_assoc, Option.or_assoc]
    rfl

/-- A table shows at its keys what is put there, and otherwise what it is put above. -/
theorem seen?_put_of_isTable (h : (put new place none).IsTable) (old : Option Setting) (key : String) :
    seen? [key] (put new place old) = (seen? [key] (put new place none)).or (seen? [key] (old.getD .absent)) := by
  rcases place with _ | ⟨name | i, rest⟩
  · cases new with
    | table entries =>
      have hempty : seen? [key] (.table (old.getD .absent).entries) = seen? [key] (old.getD .absent) := rfl
      rw [← hempty]
      exact seen?_entriesAbove entries (old.getD .absent).entries key
    | _ =>
      obtain ⟨entries, hentries⟩ := h
      cases hentries
  · exact seen?_put_key new name rest old key
  · obtain ⟨entries, hentries⟩ := h
    cases hentries

/-! ### Layers -/

/-- The places that are looked at: a key, or a key of a table. -/
inductive IsSeenIn (tables : List String) : List String → Prop
  | key (name : String) : IsSeenIn tables [name]
  | member (name key : String) (h : name ∈ tables) : IsSeenIn tables [name, key]

/-- Every name leads to a key first. -/
theorem exists_ofName_eq (name : String) : ∃ key rest, SettingStep.ofName name = .key key :: rest := by
  obtain ⟨key, rest, hkey⟩ | hnone : (∃ key rest, SettingStep.read? name.toList = some (.key key :: rest)) ∨
      SettingStep.read? name.toList = none := by
    rw [SettingStep.read?, SettingStep.steps?]
    split
    · exact .inr rfl
    · cases SettingStep.steps? name.toList.length (name.toList.dropWhile SettingStep.inKey) with
      | none => exact .inr rfl
      | some rest => exact .inl ⟨_, rest, rfl⟩
  · exact ⟨key, rest, by rw [SettingStep.ofName, hkey, Option.getD_some]⟩
  · exact ⟨name, [], by rw [SettingStep.ofName, hnone, Option.getD_none]⟩

variable {tables keys : List String} {entry : String × Setting} {layer : List (String × Setting)}

/-- What an entry sets it shows, and otherwise what it is put above. -/
theorem seen?_entry (hplace : IsSeenIn tables keys) (h : GivesTables tables entry) (root : Setting) :
    seen? keys (overlay [entry] root) = (seen? keys (ofLayer [entry])).or (seen? keys root) := by
  obtain ⟨k, rest, hname⟩ := exists_ofName_eq entry.1
  have hput : ∀ root, overlay [entry] root = put entry.2 (.key k :: rest) (some root) := by
    intro root
    rw [← hname]
    rfl
  cases hplace with
  | key name =>
    rw [ofLayer, hput, hput, seen?_put_key, seen?_put_key entry.2 k rest (some (.table []))]
    have hempty : seen? [name] (.table []) = none := rfl
    rw [Option.getD_some, Option.getD_some, hempty, Option.or_none]
  | member name key hmem =>
    have hlookup : ∀ root : Setting, (overlay [entry] root).entries.lookup name =
        if k = name then some (put entry.2 rest (root.entries.lookup name)) else root.entries.lookup name := by
      intro root
      rw [hput]
      exact lookup_alterEntry k name _ root.entries
    rw [seen?_key_cons, seen?_key_cons, seen?_key_cons, ofLayer, hlookup, hlookup]
    by_cases hk : k = name
    · have htable : (put entry.2 rest none).IsTable := by
        refine h name hmem _ ?_
        rw [at?, ofLayer, hlookup, if_pos hk]
        rfl
      have hbelow : seen? [key] ((root.entries.lookup name).getD .absent) =
          (root.entries.lookup name).bind (seen? [key]) := by
        cases root.entries.lookup name <;> rfl
      rw [if_pos hk, if_pos hk, Option.bind_some, Option.bind_some, seen?_put_of_isTable htable, hbelow]
      rfl
    · rw [if_neg hk, if_neg hk]
      rfl

/-- What a layer sets it shows, and otherwise what it is put above. -/
theorem seen?_overlay (hplace : IsSeenIn tables keys) (h : ∀ entry ∈ layer, GivesTables tables entry)
    (root : Setting) :
    seen? keys (overlay layer root) = (seen? keys (ofLayer layer)).or (seen? keys root) := by
  induction layer generalizing root with
  | nil => cases hplace <;> rfl
  | cons entry rest ih =>
    obtain ⟨hentry, hrest⟩ := List.forall_mem_cons.1 h
    have hcons : ∀ root, overlay (entry :: rest) root = overlay rest (overlay [entry] root) := fun _ => rfl
    rw [ofLayer, hcons, hcons, ih hrest, ih hrest (overlay [entry] (.table [])), seen?_entry hplace hentry,
      Option.or_assoc]
    rfl

/-- Of layers upon each other the highest that sets something shows it. -/
theorem seen?_layers {layers : List (List (String × Setting))} (hplace : IsSeenIn tables keys)
    (h : ∀ layer ∈ layers, ∀ entry ∈ layer, GivesTables tables entry) (root : Setting) :
    seen? keys (layers.foldl (fun root layer => overlay layer root) root) =
      (layers.reverse.findSome? fun layer => seen? keys (ofLayer layer)).or (seen? keys root) := by
  induction layers generalizing root with
  | nil => rfl
  | cons layer rest ih =>
    obtain ⟨hlayer, hrest⟩ := List.forall_mem_cons.1 h
    rw [List.foldl_cons, ih hrest, seen?_overlay hplace hlayer, List.reverse_cons, List.findSome?_append,
      Option.or_assoc, List.findSome?_singleton]

end Setting
end JsonRules
