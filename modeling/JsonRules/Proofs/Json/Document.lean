import JsonRules.Proofs.Json.Token

/-!
# Reading what a value is written as

The text of a value is in the grammar and is read as the document that the value is written as
(`Document.read?_text`); this document says the value, if it may nest as deep (`Json.value?_document`). So a value is
read back from its text (`Json.read?_text`).
-/

namespace JsonRules
namespace Json

variable {v : Json} {items : List Json} {fields : List (String × Json)}

theorem documentsOfItems_eq (items : List Json) : documentsOfItems items = items.map document := by
  induction items with
  | nil => rfl
  | cons v rest ih => rw [documentsOfItems, ih, List.map_cons]

theorem documentsOfFields_eq (fields : List (String × Json)) :
    documentsOfFields fields = fields.map fun p => (p.1.toList.map .ofChar, p.2.document) := by
  induction fields with
  | nil => rfl
  | cons p rest ih => rw [documentsOfFields, ih, List.map_cons]

/-! ### From tokens to the document -/

namespace Document

/-- Wherever a value may stand, its tokens put its document there. -/
def Parses (v : Json) : Prop := ∀ frames rest,
  (v.tokens ++ rest).foldlM step? (.value frames) = rest.foldlM step? (place v.document frames)

theorem foldlM_cons {t : Token} {rest : List Token} (s : Expected) :
    (t :: rest).foldlM step? s = (step? s t).bind fun s' => rest.foldlM step? s' := rfl

/-- The first item of an array is read like any value. -/
theorem firstItem_tokens (v : Json) (frames : List Frame) (rest : List Token) :
    (v.tokens ++ rest).foldlM step? (.firstItem frames) =
      (v.tokens ++ rest).foldlM step? (.value (.array [] :: frames)) := by
  rcases v with _ | _ | _ | _ | _ | _
  · rfl
  · rfl
  · rfl
  · rfl
  · rename_i items
    cases items <;> rfl
  · rename_i fields
    cases fields <;> rfl

theorem parses_items (h : ∀ v ∈ items, Parses v) (before : List Document) (frames : List Frame) (rest : List Token) :
    (tokensOfItems items ++ rest).foldlM step? (.nextItem before frames) =
      rest.foldlM step? (place (.array (before.reverse ++ items.map document)) frames) := by
  induction items generalizing before with
  | nil => simp [tokensOfItems, step?]
  | cons v items ih =>
    obtain ⟨hv, hitems⟩ := List.forall_mem_cons.1 h
    have hcomma : step? (.nextItem before frames) .comma = some (.value (.array before :: frames)) := rfl
    rw [tokensOfItems, List.cons_append, List.cons_append, foldlM_cons, hcomma, Option.bind_some, List.append_assoc,
      hv, place, ih hitems, List.reverse_cons, List.append_assoc, List.map_cons, List.singleton_append]

theorem parses_fields (h : ∀ p ∈ fields, Parses p.2) (before : List (List StringUnit × Document))
    (frames : List Frame) (rest : List Token) :
    (tokensOfFields fields ++ rest).foldlM step? (.nextField before frames) =
      rest.foldlM step? (place (.object (before.reverse ++ documentsOfFields fields)) frames) := by
  induction fields generalizing before with
  | nil => simp [tokensOfFields, documentsOfFields, step?]
  | cons p fields ih =>
    obtain ⟨name, v⟩ := p
    obtain ⟨hv, hfields⟩ := List.forall_mem_cons.1 h
    have hname : (tokensOfFields ((name, v) :: fields) ++ rest).foldlM step? (.nextField before frames) =
        (v.tokens ++ (tokensOfFields fields ++ rest)).foldlM step?
          (.value (.object before (name.toList.map .ofChar) :: frames)) := by
      rw [← List.append_assoc]
      rfl
    rw [hname, hv, place, ih hfields, List.reverse_cons, List.append_assoc, documentsOfFields, List.singleton_append]

theorem parses (v : Json) : Parses v := by
  induction v using Json.induction with
  | scalar v hv =>
    intro frames rest
    cases v with
    | null | bool | num | str => rfl
    | arr => exact absurd rfl hv.1
    | obj => exact absurd rfl hv.2
  | arr items ih =>
    intro frames rest
    cases items with
    | nil => rfl
    | cons v items =>
      obtain ⟨hv, hitems⟩ := List.forall_mem_cons.1 ih
      have hopen : step? (.value frames) .openArray = some (.firstItem frames) := rfl
      rw [tokens, List.cons_append, List.cons_append, foldlM_cons, hopen, Option.bind_some, List.append_assoc,
        firstItem_tokens, hv, place, parses_items hitems, document, documentsOfItems, documentsOfItems_eq]
      rfl
  | obj fields ih =>
    intro frames rest
    cases fields with
    | nil => rfl
    | cons p fields =>
      obtain ⟨name, v⟩ := p
      obtain ⟨hv, hfields⟩ := List.forall_mem_cons.1 ih
      have hname : ((obj ((name, v) :: fields)).tokens ++ rest).foldlM step? (.value frames) =
          (v.tokens ++ (tokensOfFields fields ++ rest)).foldlM step?
            (.value (.object [] (name.toList.map .ofChar) :: frames)) := by
        rw [← List.append_assoc]
        rfl
      rw [hname, hv, place, parses_fields hfields, document, documentsOfFields]
      rfl

/-- The text of a value is read as its document. -/
theorem read?_text (v : Json) : read? v.text = some v.document := by
  have hparses := parses v [] []
  rw [List.append_nil] at hparses
  rw [read?, text, String.toList_ofList, Token.scan?_tokens, Option.bind_some, ofTokens?, hparses]
  rfl

end Document

/-! ### From the document to the value -/

theorem nesting_le_items (h : v ∈ items) : v.nesting ≤ nestingItems items := by
  induction items with
  | nil => cases h
  | cons w rest ih =>
    rw [nestingItems]
    rcases List.mem_cons.1 h with rfl | h
    · exact Nat.le_max_left ..
    · exact Nat.le_trans (ih h) (Nat.le_max_right ..)

theorem nesting_le_fields {p : String × Json} (h : p ∈ fields) : p.2.nesting ≤ nestingFields fields := by
  induction fields with
  | nil => cases h
  | cons q rest ih =>
    rw [nestingFields]
    rcases List.mem_cons.1 h with rfl | h
    · exact Nat.le_max_left ..
    · exact Nat.le_trans (ih h) (Nat.le_max_right ..)

theorem setField_of_not_mem {name : String} (h : name ∉ fields.map Prod.fst) :
    setField name v fields = fields ++ [(name, v)] := by
  induction fields with
  | nil => rfl
  | cons p rest ih =>
    rw [List.map_cons, List.mem_cons, not_or] at h
    rw [setField, if_neg (Ne.symm h.1), ih h.2, List.cons_append]

theorem foldl_setField (before : List (String × Json)) (h : ((before ++ fields).map Prod.fst).Nodup) :
    fields.foldl (fun acc p => setField p.1 p.2 acc) before = before ++ fields := by
  induction fields generalizing before with
  | nil => rw [List.foldl_nil, List.append_nil]
  | cons p rest ih =>
    have hnew : p.1 ∉ before.map Prod.fst := by
      rw [List.map_append, List.map_cons] at h
      intro hmem
      exact (List.nodup_append.1 h).2.2 _ hmem _ List.mem_cons_self rfl
    rw [← List.singleton_append, ← List.append_assoc] at h
    rw [List.foldl_cons, setField_of_not_mem hnew, ih _ h, List.append_assoc, List.singleton_append]

/-- Fields of distinct names are the fields of the object they make. -/
theorem ofFields_of_nodup (h : (fields.map Prod.fst).Nodup) : ofFields fields = .obj fields :=
  congrArg obj (foldl_setField [] h)

theorem items?_map {room : Nat} (h : ∀ v ∈ items, v.document.value? room = some v) :
    Document.items? room (items.map document) = some items := by
  induction items with
  | nil => rfl
  | cons v rest ih =>
    obtain ⟨hv, hrest⟩ := List.forall_mem_cons.1 h
    simp [Document.items?, hv, ih hrest]

theorem fields?_documentsOfFields {room : Nat} (h : ∀ p ∈ fields, p.2.document.value? room = some p.2) :
    Document.fields? room (documentsOfFields fields) = some fields := by
  induction fields with
  | nil => rfl
  | cons p rest ih =>
    obtain ⟨hp, hrest⟩ := List.forall_mem_cons.1 h
    simp [documentsOfFields, Document.fields?, Document.decodeString?_ofChar, hp, ih hrest]

/-- The document of a value says the value. -/
theorem value?_document {room : Nat} (hv : v.WellFormed) (hroom : v.nesting ≤ room) :
    v.document.value? room = some v := by
  induction v using Json.induction generalizing room with
  | scalar v hscalar =>
    cases v with
    | null | bool => rfl
    | num n => rw [document, Document.value?, Number.ofChars?_chars hv, Option.map_some]
    | str s => rw [document, Document.value?, Document.decodeString?_ofChar, Option.map_some]
    | arr => exact absurd rfl hscalar.1
    | obj => exact absurd rfl hscalar.2
  | arr items ih =>
    rw [nesting] at hroom
    obtain ⟨room, rfl⟩ := Nat.exists_eq_add_of_lt hroom
    have hitems : ∀ v ∈ items, v.document.value? (nestingItems items + room) = some v := fun v hmem =>
      ih v hmem (wellFormed_arr.1 hv v hmem) (Nat.le_trans (nesting_le_items hmem) (Nat.le_add_right ..))
    rw [document, documentsOfItems_eq, Document.value?, items?_map hitems, Option.map_some]
  | obj fields ih =>
    rw [nesting] at hroom
    obtain ⟨room, rfl⟩ := Nat.exists_eq_add_of_lt hroom
    obtain ⟨hnames, hvalues⟩ := wellFormed_obj.1 hv
    have hfields : ∀ p ∈ fields, p.2.document.value? (nestingFields fields + room) = some p.2 := fun p hmem =>
      ih p hmem (hvalues p hmem) (Nat.le_trans (nesting_le_fields hmem) (Nat.le_add_right ..))
    rw [document, Document.value?, fields?_documentsOfFields hfields, Option.map_some, ofFields_of_nodup hnames]

/-- A value is read back from its text. -/
theorem read?_text (hv : v.WellFormed) (hnesting : v.nesting ≤ maxNesting) : read? v.text = some v := by
  rw [read?, Document.read?_text, Option.bind_some, value?_document hv hnesting]

end Json
end JsonRules
