import JsonRules.Proofs.Json.Document
import JsonRules.Proofs.List
import JsonRules.Service.Message

/-!
# Reading messages

`Json.Document.member?_members`: the members of a value that is written have the documents of its fields. From this each
message is read back from its text (`messages_roundTrip`).
-/

namespace JsonRules
namespace Json

/-- The values that a message can carry: those that its text says again. -/
structure Portable (v : Json) : Prop where
  wellFormed : v.WellFormed
  nesting_le : v.nesting ≤ maxMemberNesting

theorem Portable.value?_document {v : Json} (h : v.Portable) : v.document.value? maxMemberNesting = some v :=
  Json.value?_document h.wellFormed h.nesting_le

/-- An object of portable values is a value as a whole. -/
theorem value?_document_obj {fields : List (String × Json)} (hnames : (fields.map Prod.fst).Nodup)
    (h : ∀ p ∈ fields, p.2.Portable) : (obj fields).document.value? maxNesting = some (.obj fields) := by
  have hfields := fields?_documentsOfFields fun p hp => (h p hp).value?_document
  have hroom : maxNesting = maxMemberNesting + 1 := rfl
  rw [document, hroom, Document.value?, hfields, Option.map_some, ofFields_of_nodup hnames]

/-- The members of an object that is written. -/
def members (fields : List (String × Json)) : List (String × Document) := fields.map fun p => (p.1, p.2.document)

namespace Document

variable {fields : List (String × Json)} {name : String}

theorem members?_document (names : List String) (fields : List (String × Json)) :
    (obj fields).document.members? names = some (members fields) := by
  rw [document, documentsOfFields_eq, members?]
  refine List.mapM_map_eq_some fun p _ => ?_
  simp only [decodeString?_ofChar]
  rfl

theorem member?_members (hnames : (fields.map Prod.fst).Nodup) (name : String) :
    member? name (members fields) = some ((field? name fields).map document) := by
  induction fields with
  | nil => rfl
  | cons p rest ih =>
    rw [List.map_cons, List.nodup_cons] at hnames
    have hmembers : members (p :: rest) = (p.1, p.2.document) :: members rest := rfl
    rw [field?_cons, hmembers]
    by_cases hp : name = p.1
    · have hrest : (members rest).filter (·.1 == p.1) = [] := by
        refine List.filter_eq_nil_iff.2 fun q hq => ?_
        obtain ⟨q, hmem, rfl⟩ := List.mem_map.1 hq
        intro hname
        exact hnames.1 (List.mem_map.2 ⟨q, hmem, beq_iff_eq.1 hname⟩)
      rw [if_pos hp, hp, member?, List.filter_cons, if_pos (beq_self_eq_true p.1), hrest]
      rfl
    · have hbeq : ¬(p.1 == name) = true := fun heq => hp (beq_iff_eq.1 heq).symm
      rw [if_neg hp, ← ih hnames.2, member?, List.filter_cons, if_neg hbeq]
      rfl

theorem asBool?_document (b : Bool) : asBool? (Json.bool b).document = some b := rfl

theorem asString?_document (s : String) : asString? (str s).document = some s := by
  rw [document, asString?, decodeString?_ofChar]

theorem optionalString?_document (text : Option String) :
    optionalString? ((text.map str).map document) = some text := by
  cases text with
  | none => rfl
  | some s =>
    have hstring := asString?_document s
    rw [Option.map_some, Option.map_some]
    rw [document] at hstring ⊢
    rw [optionalString?, hstring]
    · rfl
    · intro h
      cases h

/-- The value of a list of texts that is left out when it is empty. -/
def listValue (texts : List String) : Option Json := if texts = [] then none else some (.arr (texts.map .str))

theorem strings?_document (texts : List String) : strings? ((listValue texts).map document) = some texts := by
  unfold listValue
  split
  · rename_i hnil
    rw [hnil]
    rfl
  · have htexts : (texts.map fun s => (str s).document).mapM asString? = some (texts.map id) :=
      List.mapM_map_eq_some fun s _ => asString?_document s
    rw [List.map_id] at htexts
    rw [Option.map_some, document, documentsOfItems_eq, strings?, List.map_map]
    exact htexts

end Document

variable {name name' : String}

theorem field?_optionalField (text : Option String) :
    field? name (optionalField name' text) = if name = name' then text.map .str else none := by
  cases text with
  | none => simp [optionalField, field?]
  | some s =>
    rw [optionalField, field?_cons]
    rfl

theorem field?_listField (texts : List String) :
    field? name (listField name' texts) = if name = name' then Document.listValue texts else none := by
  cases texts with
  | nil => simp [listField, field?, Document.listValue]
  | cons s rest =>
    have hfield : listField name' (s :: rest) = [(name', .arr ((s :: rest).map .str))] := rfl
    rw [hfield, field?_cons]
    rfl

theorem field?_append (fields fields' : List (String × Json)) :
    field? name (fields ++ fields') = (field? name fields).or (field? name fields') :=
  List.lookup_append

theorem sublist_optionalField (name : String) (text : Option String) :
    ((optionalField name text).map Prod.fst).Sublist [name] := by
  cases text with
  | none => exact List.nil_sublist _
  | some => exact List.Sublist.refl _

theorem sublist_listField (name : String) (texts : List String) :
    ((listField name texts).map Prod.fst).Sublist [name] := by
  cases texts with
  | nil => exact List.nil_sublist _
  | cons => exact List.Sublist.refl _

theorem portable_str (s : String) : (str s).Portable := ⟨trivial, Nat.zero_le _⟩

theorem portable_bool (b : Bool) : (bool b).Portable := ⟨trivial, Nat.zero_le _⟩

end Json

open Json

/-! ### Each message is read from its document -/

theorem ProcessRequest.ofDocument?_toJson {q : ProcessRequest} (hrule : q.rule.Portable) (hdata : q.data.Portable) :
    ofDocument? q.toJson.document = some q := by
  have hnames : ([("rule", q.rule), ("data", q.data)].map Prod.fst).Nodup := by simp
  have hmember := Document.member?_members hnames
  simp [ofDocument?, toJson, Document.members?_document, hmember, field?_cons, Document.valueOr?,
    hrule.value?_document, hdata.value?_document]

namespace ProcessReply

/-- The values within a reply. -/
def values : ProcessReply → List Json
  | .success _ result rule data => [result, rule, data]
  | .failure .. => []

theorem ofDocument?_obj {fields : List (String × Json)} (hnames : (fields.map Prod.fst).Nodup)
    (h : ∀ p ∈ fields, p.2.Portable) :
    ofDocument? (obj fields).document = (successOf? (members fields) <|> failureOf? (members fields)) := by
  have hvalue := value?_document_obj hnames h
  have hmembers := Document.members?_document [] fields
  rw [document] at hvalue hmembers ⊢
  simp [ofDocument?, hvalue, hmembers]

theorem ofDocument?_toJson {r : ProcessReply} (h : ∀ v ∈ r.values, v.Portable) :
    ofDocument? r.toJson.document = some r := by
  cases r with
  | success flag result rule data =>
    have hnames : ([("success", Json.bool flag), ("result", result), ("rule", rule), ("data", data)].map
        Prod.fst).Nodup := by simp
    have hmember := Document.member?_members hnames
    simp only [values, List.forall_mem_cons] at h
    obtain ⟨hresult, hrule, hdata, -⟩ := h
    rw [toJson, ofDocument?_obj hnames (by simp [*, portable_bool])]
    simp [successOf?, hmember, field?_cons, hresult.value?_document, hrule.value?_document, hdata.value?_document,
      Document.asBool?_document]
  | failure flag error kind =>
    have hnames : ((("success", Json.bool flag) :: ("error", .str error) :: optionalField "kind" kind).map
        Prod.fst).Nodup := by cases kind <;> simp [optionalField]
    have hmember := Document.member?_members hnames
    have hportable : ∀ p ∈ optionalField "kind" kind, p.2.Portable := by
      cases kind <;> simp [optionalField, portable_str]
    have hkind : Document.optionalString? ((field? "kind" (optionalField "kind" kind)).map document) = some kind := by
      rw [field?_optionalField, if_pos rfl, Document.optionalString?_document]
    have hresult : field? "result" (optionalField "kind" kind) = none := by rw [field?_optionalField, if_neg (by decide)]
    rw [toJson, ofDocument?_obj hnames (by simpa [portable_bool, portable_str] using hportable)]
    -- the form with a result lacks one
    have hsuccess : successOf? (members (("success", Json.bool flag) :: ("error", .str error) ::
        optionalField "kind" kind)) = none := by
      simp [successOf?, hmember, field?_cons, hresult]
    rw [hsuccess]
    simp [failureOf?, hmember, field?_cons, hkind, Document.asString?_document, Document.asBool?_document]

end ProcessReply

namespace ValidationReply

/-- The fields of a reply. -/
def fields (r : ValidationReply) : List (String × Json) :=
  ("valid", .bool r.valid) :: optionalField "message" r.message ++ optionalField "error" r.error ++
    listField "variables" r.paths ++ listField "functions" r.functions

theorem nodup_fields (r : ValidationReply) : (r.fields.map Prod.fst).Nodup := by
  have hsublist : (r.fields.map Prod.fst).Sublist ["valid", "message", "error", "variables", "functions"] := by
    simp only [fields, List.map_append, List.map_cons, List.cons_append]
    exact .cons_cons _ ((((sublist_optionalField ..).append (sublist_optionalField ..)).append
      (sublist_listField ..)).append (sublist_listField ..))
  exact List.Nodup.sublist hsublist (by decide)

theorem ofDocument?_toJson (r : ValidationReply) : ofDocument? r.toJson.document = some r := by
  have hmember := Document.member?_members r.nodup_fields
  have hvalid : field? "valid" r.fields = some (.bool r.valid) := by
    simp [fields, field?_cons]
  have hmessage : field? "message" r.fields = r.message.map .str := by
    simp [fields, field?_cons, field?_append, field?_optionalField, field?_listField]
  have herror : field? "error" r.fields = r.error.map .str := by
    simp [fields, field?_cons, field?_append, field?_optionalField, field?_listField]
  have hpaths : field? "variables" r.fields = Document.listValue r.paths := by
    simp [fields, field?_cons, field?_append, field?_optionalField, field?_listField]
  have hfunctions : field? "functions" r.fields = Document.listValue r.functions := by
    simp [fields, field?_cons, field?_append, field?_optionalField, field?_listField]
  have htoJson : r.toJson = .obj r.fields := rfl
  rw [htoJson, ofDocument?, Document.members?_document]
  simp [-Option.map_map, hmember, hvalid, hmessage, herror, hpaths, hfunctions, Document.optionalString?_document,
    Document.strings?_document, Document.asBool?_document]

end ValidationReply

/-! ### Each message is read from its text -/

/-- A message is read from its text as it is, and what is read is written as the same text. -/
def RoundTrips {α : Type} (toJson : α → Json) (read? : String → Option α) (message : α) : Prop :=
  read? (toJson message).text = some message ∧
    (read? (toJson message).text).map (fun m => (toJson m).text) = some (toJson message).text

theorem roundTrips_of_ofDocument? {α : Type} {toJson : α → Json} {ofDocument? : Document → Option α} {message : α}
    (h : ofDocument? (toJson message).document = some message) :
    RoundTrips toJson (fun text => (Document.read? text).bind ofDocument?) message := by
  have hread : (Document.read? (toJson message).text).bind ofDocument? = some message := by
    rw [Document.read?_text, Option.bind_some, h]
  refine ⟨hread, ?_⟩
  simp only [hread, Option.map_some]

/-- Every message survives its text: requests and replies of either form whose values are portable, with any flag and
any kind or none, and every reply on validity, whatever it leaves out. -/
theorem messages_roundTrip :
    (∀ q : ProcessRequest, q.rule.Portable → q.data.Portable →
      RoundTrips ProcessRequest.toJson ProcessRequest.read? q) ∧
    (∀ r : ProcessReply, (∀ v ∈ r.values, v.Portable) → RoundTrips ProcessReply.toJson ProcessReply.read? r) ∧
    ∀ r : ValidationReply, RoundTrips ValidationReply.toJson ValidationReply.read? r :=
  ⟨fun _ hrule hdata => roundTrips_of_ofDocument? (ProcessRequest.ofDocument?_toJson hrule hdata),
    fun _ h => roundTrips_of_ofDocument? (ProcessReply.ofDocument?_toJson h),
    fun r => roundTrips_of_ofDocument? r.ofDocument?_toJson⟩

/-- A result that looks like an error, under the flag of a failure, stays a result; a failure under the flag of a
success stays a failure. -/
theorem messages_roundTrip_crossed :
    RoundTrips ProcessRequest.toJson ProcessRequest.read? { rule := .ofInt (-1), data := .arr [.obj []] } ∧
    RoundTrips ProcessReply.toJson ProcessReply.read?
      (.success false (.obj [("success", .bool false), ("error", .str "\n")]) .null (.arr [.arr []])) ∧
    RoundTrips ProcessReply.toJson ProcessReply.read? (.failure true "" (some "result")) ∧
    RoundTrips ValidationReply.toJson ValidationReply.read? { valid := true, error := some "", functions := [""] } := by
  obtain ⟨hrequest, hreply, hvalidation⟩ := messages_roundTrip
  refine ⟨hrequest _ ⟨?_, ?_⟩ ⟨?_, ?_⟩, hreply _ ?_, hreply _ (List.forall_mem_nil _), hvalidation _⟩
  · exact ⟨by decide, by decide⟩
  · decide
  · simp [WellFormed, WellFormedItems, WellFormedFields]
  · decide
  · simp only [ProcessReply.values, List.forall_mem_cons]
    refine ⟨⟨?_, by decide⟩, ⟨trivial, by decide⟩, ⟨?_, by decide⟩, List.forall_mem_nil _⟩
    · simp [WellFormed, WellFormedFields]
    · simp [WellFormed, WellFormedItems]

end JsonRules
