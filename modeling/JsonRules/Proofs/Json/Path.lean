import JsonRules.Json
import JsonRules.Proofs.Integer
import JsonRules.Proofs.Json.Parts
import Mathlib.Data.List.Basic
import Mathlib.Data.List.Forall2

/-!
# Paths and places

A place is a list of steps from a value to one of its parts. `Json.pathOf` spells it as a path, and
`Json.Spells` says of a path that it spells a place: an index may be written with zeros in front, and it
may be of any size.

What stands at a path is what stands at the place that the path spells (`at?_eq_some_iff`). A path has one
list of segments (`isSplit_iff`); decimal digits spell an index up to zeros in front
(`index?_eq_some_iff`); and no index that a word cannot hold is that of an item, so reading indices into
words loses none (`wordIndex?_bind_getElem?`).
-/

namespace JsonRules

/-! ## Places -/

namespace Json

/-- A step from a value to one of its parts. -/
inductive Step where
  | field (name : String)
  | item (index : Nat)
deriving DecidableEq, Repr

/-- The part that a step leads to. -/
def part? (v : Json) : Step → Option Json
  | .field name => match v with
    | .obj fields => field? name fields
    | _ => none
  | .item i => match v with
    | .arr items => items[i]?
    | _ => none

/-- The part at a place. -/
def reach? (v : Json) (place : List Step) : Option Json := place.foldlM part? v

/-- The segment that spells a step: a name is itself, an index is in decimal digits. -/
def Step.segment : Step → List Char
  | .field name => name.toList
  | .item i => Nat.toDigits 10 i

/-- The path that spells a place. -/
def pathOf (place : List Step) : String :=
  String.ofList (['.'].intercalate (place.map Step.segment))

/-- A segment spells a step: a name as it is, an index in decimal digits after any number of zeros. -/
def Step.IsSpelledBy (segment : List Char) : Step → Prop
  | .field name => segment = name.toList
  | .item i => ∃ zeros, segment = List.replicate zeros '0' ++ Nat.toDigits 10 i

/-- The segments of a path: there is one at least, none has a point in it, and with points between they
are the path. -/
def IsSplit (path : String) (segments : List (List Char)) : Prop :=
  segments ≠ [] ∧ (∀ segment ∈ segments, '.' ∉ segment) ∧ ['.'].intercalate segments = path.toList

/-- A path spells a place, each step by one segment. -/
def Spells (path : String) (place : List Step) : Prop :=
  ∃ segments, IsSplit path segments ∧
    List.Forall₂ (fun segment step => step.IsSpelledBy segment) segments place

/-- No array within the value has more items than there are indices, as none in memory has. -/
def Indexable (v : Json) : Prop :=
  ∀ place items, v.reach? place = some (.arr items) → items.length ≤ indexBound

end Json

/-! ## Reading paths -/

namespace Json

variable {v w : Json} {path : String} {segment digits text : List Char} {items : List Json}

/-! ### Segments -/

theorem segments_eq_splitOn (text : List Char) : segments text = text.splitOn '.' := by
  induction text with
  | nil => rfl
  | cons c rest ih =>
    rw [segments, List.splitOn_cons_eq_if_modifyHead, ih]
    by_cases hc : c = '.'
    · rw [if_pos hc, if_pos (beq_iff_eq.2 hc)]
    · rw [if_neg hc, if_neg (mt beq_iff_eq.1 hc)]
      cases hrest : rest.splitOn '.' with
      | nil => exact absurd hrest (List.splitOn_ne_nil '.' rest)
      | cons first others => rfl

theorem not_mem_of_mem_segments (h : segment ∈ segments text) : '.' ∉ segment := by
  induction text generalizing segment with
  | nil =>
    obtain rfl : segment = [] := by simpa [segments] using h
    exact List.not_mem_nil
  | cons c rest ih =>
    rw [segments] at h
    by_cases hc : c = '.'
    · rw [if_pos hc] at h
      rcases List.mem_cons.1 h with rfl | h
      · exact List.not_mem_nil
      · exact ih h
    · rw [if_neg hc] at h
      have hpoint : '.' ≠ c := fun h => hc h.symm
      cases hrest : segments rest with
      | nil =>
        rw [hrest] at h
        obtain rfl : segment = [c] := List.mem_singleton.1 h
        simpa using hpoint
      | cons first others =>
        rw [hrest] at h ih
        rcases List.mem_cons.1 h with rfl | h
        · exact List.not_mem_cons_of_ne_of_not_mem hpoint (ih List.mem_cons_self)
        · exact ih (List.mem_cons_of_mem first h)

theorem isSplit_iff {list : List (List Char)} :
    IsSplit path list ↔ list = segments path.toList := by
  constructor
  · rintro ⟨hne, hpoints, htext⟩
    rw [segments_eq_splitOn, ← htext, List.splitOn_intercalate '.' hpoints hne]
  · rintro rfl
    refine ⟨?_, fun segment h => not_mem_of_mem_segments h, ?_⟩
    · rw [segments_eq_splitOn]
      exact List.splitOn_ne_nil '.' _
    · rw [segments_eq_splitOn]
      exact List.intercalate_splitOn '.'

/-! ### Digits -/

theorem index?_eq_some_iff {i : Nat} :
    index? segment = some i ↔ ∃ zeros, segment = List.replicate zeros '0' ++ Nat.toDigits 10 i := by
  unfold index?
  rw [digitsValue_eq, Option.ite_none_right_eq_some, Option.some.injEq]
  constructor
  · rintro ⟨⟨hne, hall⟩, rfl⟩
    exact Nat.exists_eq_toDigits hne (List.all_eq_true.1 hall)
  · rintro ⟨zeros, rfl⟩
    have hdigits : ∀ c ∈ List.replicate zeros '0' ++ Nat.toDigits 10 i, c.isDigit = true := by
      intro c hc
      rcases List.mem_append.1 hc with hc | hc
      · exact Nat.isDigit_of_mem_zeros zeros c hc
      · exact Nat.isDigit_of_mem_toDigits (by decide) (by decide) hc
    refine ⟨⟨?_, List.all_eq_true.2 hdigits⟩, ?_⟩
    · exact List.append_ne_nil_of_right_ne_nil _ Nat.toDigits_ne_nil
    · rw [Nat.ofDigitChars_append, Nat.ofDigitChars_replicate_zero, Nat.mul_zero,
        Nat.ofDigitChars_ten_toDigits]

/-! ### Words -/

theorem word?_eq_some_iff {n m : Nat} : word? n = some m ↔ n < indexBound ∧ n = m := by
  unfold word?
  rw [Option.ite_none_right_eq_some, Option.some.injEq]

theorem word?_eq_none_iff {n : Nat} : word? n = none ↔ indexBound ≤ n := by
  unfold word?
  rw [ite_eq_right_iff]
  simp

/-- If the product leaves the words, so does the sum. -/
theorem pushDigit?_eq (n : Nat) (c : Char) :
    pushDigit? n c = word? (10 * n + (c.toNat - '0'.toNat)) := by
  unfold pushDigit?
  cases hshifted : word? (10 * n) with
  | some shifted =>
    obtain ⟨-, rfl⟩ := word?_eq_some_iff.1 hshifted
    rfl
  | none =>
    have hbound := word?_eq_none_iff.1 hshifted
    exact (word?_eq_none_iff.2 (by omega)).symm

/-- Reading into a word fails just where the number is no word: an index only grows. -/
theorem foldlM_pushDigit? {n : Nat} (hn : n < indexBound) :
    digits.foldlM pushDigit? n = word? (Nat.ofDigitChars 10 digits n) := by
  induction digits generalizing n with
  | nil => exact (word?_eq_some_iff.2 ⟨hn, rfl⟩).symm
  | cons c rest ih =>
    rw [List.foldlM_cons, pushDigit?_eq, Nat.ofDigitChars_cons]
    cases hpush : word? (10 * n + (c.toNat - '0'.toNat)) with
    | some m =>
      obtain ⟨hm, rfl⟩ := word?_eq_some_iff.1 hpush
      exact ih hm
    | none =>
      have hbound := word?_eq_none_iff.1 hpush
      exact (word?_eq_none_iff.2 (Nat.le_trans hbound (Nat.le_ofDigitChars rest _))).symm

theorem wordIndex?_eq (segment : List Char) : wordIndex? segment = (index? segment).bind word? := by
  have hread : segment.foldlM pushDigit? 0 = word? (Nat.ofDigitChars 10 segment 0) :=
    foldlM_pushDigit? (by decide)
  unfold wordIndex? index?
  rw [hread, digitsValue_eq]
  split <;> rfl

theorem wordIndex?_bind_getElem? (segment : List Char) (h : items.length ≤ indexBound) :
    (wordIndex? segment).bind (items[·]?) = (index? segment).bind (items[·]?) := by
  rw [wordIndex?_eq]
  cases index? segment with
  | none => rfl
  | some i =>
    cases hword : word? i with
    | some j =>
      obtain ⟨-, rfl⟩ := word?_eq_some_iff.1 hword
      simp [hword]
    | none =>
      have hbound := word?_eq_none_iff.1 hword
      have hitem : items[i]? = none := List.getElem?_eq_none (Nat.le_trans h hbound)
      simp [hword, hitem]

/-! ### Steps -/

theorem reach?_cons (v : Json) (step : Step) (place : List Step) :
    v.reach? (step :: place) = (v.part? step).bind (·.reach? place) :=
  List.foldlM_cons

theorem part?_field {name : String} :
    v.part? (.field name) = some w ↔ ∃ fields, v = .obj fields ∧ field? name fields = some w := by
  cases v <;> simp [part?]

theorem part?_item {i : Nat} :
    v.part? (.item i) = some w ↔ ∃ items, v = .arr items ∧ items[i]? = some w := by
  cases v <;> simp [part?]

theorem Indexable.length_le (h : v.Indexable) (hv : v = .arr items) : items.length ≤ indexBound :=
  h [] items (congrArg some hv)

theorem Indexable.part {step : Step} (h : v.Indexable) (hw : v.part? step = some w) : w.Indexable := by
  intro place items hitems
  refine h (step :: place) items ?_
  rw [reach?_cons, hw]
  exact hitems

theorem indexable_of_parts (hitems : ∀ items, v = .arr items → items.length ≤ indexBound)
    (hparts : ∀ step w, v.part? step = some w → w.Indexable) : v.Indexable := by
  intro place items hreach
  cases place with
  | nil => exact hitems items (Option.some.inj hreach)
  | cons step place =>
    rw [reach?_cons] at hreach
    obtain ⟨w, hw, hreach⟩ := Option.bind_eq_some_iff.1 hreach
    exact hparts step w hw place items hreach

theorem indexable_of_isScalar (h : v.IsScalar) : v.Indexable := by
  refine indexable_of_parts ?_ ?_
  · rintro items rfl
    exact absurd rfl h.1
  · intro step w hw
    cases step with
    | field name =>
      obtain ⟨fields, rfl, -⟩ := part?_field.1 hw
      exact absurd rfl h.2
    | item i =>
      obtain ⟨items, rfl, -⟩ := part?_item.1 hw
      exact absurd rfl h.1

theorem indexable_arr (hlength : items.length ≤ indexBound) (h : ∀ w ∈ items, w.Indexable) :
    (arr items).Indexable := by
  refine indexable_of_parts ?_ ?_
  · rintro _ ⟨⟩
    exact hlength
  · intro step w hw
    cases step with
    | field name => cases hw
    | item i => exact h w (List.mem_of_getElem? hw)

theorem indexable_obj {fields : List (String × Json)} (h : ∀ p ∈ fields, p.2.Indexable) :
    (obj fields).Indexable := by
  refine indexable_of_parts nofun ?_
  intro step w hw
  cases step with
  | field name => exact h (name, w) (mem_of_field? hw)
  | item i => cases hw

/-- What a segment selects is the part to which a step leads that it spells. -/
theorem child?_eq_some_iff (h : v.Indexable) :
    v.child? segment = some w ↔ ∃ step : Step, step.IsSpelledBy segment ∧ v.part? step = some w := by
  constructor
  · intro hchild
    cases v with
    | obj fields => exact ⟨.field (String.ofList segment), String.toList_ofList.symm, hchild⟩
    | arr items =>
      have hselect : (index? segment).bind (items[·]?) = some w :=
        (wordIndex?_bind_getElem? segment (h.length_le rfl)).symm.trans hchild
      obtain ⟨i, hi, hw⟩ := Option.bind_eq_some_iff.1 hselect
      exact ⟨.item i, index?_eq_some_iff.1 hi, hw⟩
    | null | bool | num | str => cases hchild
  · rintro ⟨step, hspelled, hpart⟩
    cases step with
    | field name =>
      obtain ⟨fields, rfl, hw⟩ := part?_field.1 hpart
      obtain rfl : segment = name.toList := hspelled
      rwa [child?, String.ofList_toList]
    | item i =>
      obtain ⟨items, rfl, hw⟩ := part?_item.1 hpart
      rw [child?, wordIndex?_bind_getElem? segment (h.length_le rfl), index?_eq_some_iff.2 hspelled]
      exact hw

theorem foldlM_child?_eq_some_iff (h : v.Indexable) {list : List (List Char)} :
    list.foldlM child? v = some w ↔
      ∃ place, List.Forall₂ (fun segment step => Step.IsSpelledBy segment step) list place ∧
        v.reach? place = some w := by
  induction list generalizing v with
  | nil =>
    constructor
    · exact fun hw => ⟨[], .nil, hw⟩
    · rintro ⟨place, hspelled, hw⟩
      cases hspelled
      exact hw
  | cons segment rest ih =>
    rw [List.foldlM_cons]
    constructor
    · intro hw
      obtain ⟨u, hu, hw⟩ := Option.bind_eq_some_iff.1 hw
      obtain ⟨step, hstep, hpart⟩ := (child?_eq_some_iff h).1 hu
      obtain ⟨place, hspelled, hreach⟩ := (ih (h.part hpart)).1 hw
      refine ⟨step :: place, .cons hstep hspelled, ?_⟩
      rw [reach?_cons, hpart]
      exact hreach
    · rintro ⟨place, hspelled, hreach⟩
      cases hspelled with
      | cons hstep hspelled =>
        rw [reach?_cons] at hreach
        obtain ⟨u, hpart, hreach⟩ := Option.bind_eq_some_iff.1 hreach
        exact Option.bind_eq_some_iff.2 ⟨u, (child?_eq_some_iff h).2 ⟨_, hstep, hpart⟩,
          (ih (h.part hpart)).2 ⟨_, hspelled, hreach⟩⟩

/-! ### Paths -/

theorem at?_of_ne (hpath : path ≠ "") : v.at? path = (segments path.toList).foldlM child? v :=
  if_neg hpath

theorem at?_eq_some_iff (h : v.Indexable) (hpath : path ≠ "") :
    v.at? path = some w ↔ ∃ place, Spells path place ∧ v.reach? place = some w := by
  rw [at?_of_ne hpath, foldlM_child?_eq_some_iff h]
  constructor
  · rintro ⟨place, hspelled, hreach⟩
    exact ⟨place, ⟨_, isSplit_iff.2 rfl, hspelled⟩, hreach⟩
  · rintro ⟨place, ⟨list, hsplit, hspelled⟩, hreach⟩
    rw [isSplit_iff.1 hsplit] at hspelled
    exact ⟨place, hspelled, hreach⟩

theorem Step.isSpelledBy_segment (step : Step) : step.IsSpelledBy step.segment := by
  cases step with
  | field name => rfl
  | item i => exact ⟨0, rfl⟩

/-- The joined segments of a place spell it, where no name has a point in it. -/
theorem spells_pathOf {place : List Step} (hnames : ∀ name, Step.field name ∈ place → '.' ∉ name.toList)
    (hne : place ≠ []) : Spells (pathOf place) place := by
  refine ⟨place.map Step.segment, ⟨?_, ?_, String.toList_ofList.symm⟩, ?_⟩
  · exact mt List.map_eq_nil_iff.1 hne
  · intro segment hsegment
    obtain ⟨step, hstep, rfl⟩ := List.mem_map.1 hsegment
    cases step with
    | field name => exact hnames name hstep
    | item i =>
      intro hpoint
      have hdigit : '.'.isDigit = true := Nat.isDigit_of_mem_toDigits (by decide) (by decide) hpoint
      cases hdigit
  · rw [List.forall₂_map_left_iff]
    exact List.forall₂_same.2 fun step _ => step.isSpelledBy_segment

/-- Looking up two paths one after the other is looking up the two with a point between. -/
theorem at?_append {p q : String} (hp : p ≠ "") (hq : q ≠ "") :
    v.at? (p ++ "." ++ q) = (v.at? p).bind (·.at? q) := by
  have htext : (p ++ "." ++ q).toList = p.toList ++ '.' :: q.toList := by simp
  have hne : p ++ "." ++ q ≠ "" := by
    intro hempty
    rw [hempty] at htext
    simp at htext
  have hsplit : segments (p.toList ++ '.' :: q.toList) = segments p.toList ++ segments q.toList := by
    simp only [segments_eq_splitOn]
    exact List.splitOn_append_cons_self _ _
  rw [at?_of_ne hne, at?_of_ne hp, htext, hsplit, List.foldlM_append]
  cases (segments p.toList).foldlM child? v with
  | none => rfl
  | some u => exact (at?_of_ne hq).symm

/-- A path finds what stands at the places that it spells and nothing else, whatever the size of an index.
All that can be reached without a point in a name is found by its steps joined with points, and looking up
joined paths is looking up one after the other. -/
theorem path_addresses (h : v.Indexable) :
    (∀ path w, path ≠ "" →
      (v.at? path = some w ↔ ∃ place, Spells path place ∧ v.reach? place = some w)) ∧
    (∀ place w, (∀ name, Step.field name ∈ place → '.' ∉ name.toList) → pathOf place ≠ "" →
      v.reach? place = some w → v.at? (pathOf place) = some w) ∧
    ∀ p q, p ≠ "" → q ≠ "" → v.at? (p ++ "." ++ q) = (v.at? p).bind (·.at? q) := by
  refine ⟨fun path w hpath => at?_eq_some_iff h hpath, fun place w hnames hpath hreach => ?_,
    fun p q hp hq => at?_append hp hq⟩
  have hne : place ≠ [] := by
    rintro rfl
    exact hpath rfl
  exact (at?_eq_some_iff h hpath).2 ⟨place, spells_pathOf hnames hne, hreach⟩

/-- An index with a zero in front, a digit that is a name, and an index that only a word without its
highest digit would take for that of an item. -/
theorem path_addresses_zeros :
    let v : Json := .obj [("a", .arr [.null, .obj [("0", true)]])]
    v.Indexable ∧ v.at? "a.01.0" = some true ∧
      v.at? (pathOf [.field "a", .item 1, .field "0"]) = some true ∧
      v.at? ("a" ++ "." ++ "18446744073709551617") = none := by
  intro v
  have hscalars : (bool true).Indexable ∧ null.Indexable :=
    ⟨indexable_of_isScalar ⟨nofun, nofun⟩, indexable_of_isScalar ⟨nofun, nofun⟩⟩
  have hinner : (obj [("0", true)]).Indexable := indexable_obj (by simpa using hscalars.1)
  have hitems : (arr [.null, .obj [("0", true)]]).Indexable :=
    indexable_arr (by decide) (by simpa using ⟨hscalars.2, hinner⟩)
  have hv : v.Indexable := indexable_obj (by simpa [v] using hitems)
  obtain ⟨hfinds, hjoined, happend⟩ := path_addresses hv
  refine ⟨hv, ?_, ?_, ?_⟩
  · refine (hfinds "a.01.0" true (by decide)).2 ⟨[.field "a", .item 1, .field "0"], ?_, rfl⟩
    refine ⟨[['a'], ['0', '1'], ['0']], ⟨by decide, by decide, by decide⟩, ?_⟩
    exact .cons rfl (.cons ⟨1, rfl⟩ (.cons rfl .nil))
  · exact hjoined _ true (by simp) (by decide) rfl
  · rw [happend "a" "18446744073709551617" (by decide) (by decide)]
    rfl

end Json
end JsonRules
