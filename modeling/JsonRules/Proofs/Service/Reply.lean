import JsonRules.Proofs.Service.Message
import JsonRules.Proofs.Service.Process

/-!
# The form of a reply

Which form a text is read as depends on the members that are there, and the flag is only carried along
(`ProcessReply.read_reports`). Replies that the service makes have the flag of their form, also once they have been
written and read.
-/

namespace JsonRules
open Json

namespace Json
namespace Document

variable {list : List (String × Document)} {name : String} {d : Document}

/-- A member is found if its name occurs once. -/
theorem member?_eq_some_iff :
    member? name list = some (some d) ↔ (list.map Prod.fst).count name = 1 ∧ (name, d) ∈ list := by
  obtain ⟨found, hfound⟩ : ∃ found, found = list.filter (·.1 == name) := ⟨_, rfl⟩
  have hcount : (list.map Prod.fst).count name = found.length := by
    rw [hfound, List.count, List.countP_map, List.countP_eq_length_filter]
    rfl
  have hmem : (name, d) ∈ list ↔ (name, d) ∈ found := by simp [hfound]
  have hname : ∀ p ∈ found, p.1 = name := by
    intro p hp
    rw [hfound, List.mem_filter] at hp
    exact beq_iff_eq.1 hp.2
  rw [hcount, hmem, member?, ← hfound]
  rcases found with _ | ⟨⟨name', d'⟩, _ | ⟨q, rest⟩⟩
  · simp
  · obtain rfl : name' = name := hname _ List.mem_cons_self
    simp [eq_comm]
  · simp

/-- The members of an object that is a value as a whole are values. -/
theorem exists_value?_of_mem {fields : List (List StringUnit × Document)} {room : Nat} {w : Json}
    (hvalue : value? (room + 1) (.object fields) = some w) (hmembers : (object fields).members? [] = some list) :
    ∀ p ∈ list, ∃ v, p.2.value? room = some v := by
  rw [value?, Option.map_eq_some_iff] at hvalue
  obtain ⟨values, hvalues, -⟩ := hvalue
  rw [members?] at hmembers
  induction fields generalizing values list with
  | nil =>
    cases hmembers
    exact List.forall_mem_nil _
  | cons field fields ih =>
    obtain ⟨units, d⟩ := field
    simp only [fields?, Option.bind_eq_bind, Option.bind_eq_some_iff] at hvalues
    simp only [List.mapM_cons, Option.bind_eq_bind, Option.bind_eq_some_iff] at hmembers
    obtain ⟨-, -, v, hv, values', hvalues', -⟩ := hvalues
    obtain ⟨p, ⟨name, -, hp⟩, rest, hrest, hlist⟩ := hmembers
    cases hp
    cases hlist
    exact List.forall_mem_cons.2 ⟨⟨v, hv⟩, ih hrest values' hvalues'⟩

end Document
end Json

namespace ProcessReply

/-- The flag, which either form has. -/
def flag : ProcessReply → Bool
  | .success flag _ _ _ => flag
  | .failure flag _ _ => flag

/-- What a reply tells of the members that it is read from. Its flag is the member of that name, but its form is told
by the members of a result. -/
structure Reports (r : ProcessReply) (list : List (String × Document)) : Prop where
  flag_once : (list.map Prod.fst).count "success" = 1
  flag_mem : ("success", .bool r.flag) ∈ list
  isSuccess_iff : r.isSuccess = true ↔ ∀ name ∈ ["result", "rule", "data"], (list.map Prod.fst).count name = 1
  result_iff : r.result?.isSome ↔ r.isSuccess = true
  result_mem : ∀ v, r.result? = some v → ∃ d, ("result", d) ∈ list ∧ d.value? maxMemberNesting = some v

variable {r : ProcessReply} {list : List (String × Document)}

/-- The member of a name is there once and can be read. -/
theorem bind_member?_eq_some_iff {α β : Type} {f : Document → Option α} {g : α → Option β} {name : String} {b : β} :
    ((Document.member? name list).bind fun found => (found.bind f).bind g) = some b ↔
      ∃ d a, Document.member? name list = some (some d) ∧ f d = some a ∧ g a = some b := by
  simp only [Option.bind_eq_some_iff]
  constructor
  · rintro ⟨_, hfound, a, ⟨d, rfl, ha⟩, hb⟩
    exact ⟨d, a, hfound, ha, hb⟩
  · rintro ⟨d, a, hfound, ha, hb⟩
    exact ⟨some d, hfound, a, ⟨d, rfl, ha⟩, hb⟩

theorem asBool?_eq_some_iff {d : Document} {b : Bool} : d.asBool? = some b ↔ d = .bool b := by
  cases d <;> simp [Document.asBool?]

theorem successOf?_eq_some_iff : successOf? list = some r ↔ ∃ flag result rule data,
    r = .success flag result rule data ∧ Document.member? "success" list = some (some (.bool flag)) ∧
    (∃ d, Document.member? "result" list = some (some d) ∧ d.value? maxMemberNesting = some result) ∧
    (∃ d, Document.member? "rule" list = some (some d) ∧ d.value? maxMemberNesting = some rule) ∧
    ∃ d, Document.member? "data" list = some (some d) ∧ d.value? maxMemberNesting = some data := by
  simp only [successOf?, Option.bind_eq_bind, bind_member?_eq_some_iff, asBool?_eq_some_iff]
  constructor
  · rintro ⟨_, flag, hflag, rfl, d, result, hd, hresult, d', rule, hd', hrule, d'', data, hd'', hdata, hr⟩
    cases hr
    exact ⟨flag, result, rule, data, rfl, hflag, ⟨d, hd, hresult⟩, ⟨d', hd', hrule⟩, d'', hd'', hdata⟩
  · rintro ⟨flag, result, rule, data, rfl, hflag, ⟨d, hd, hresult⟩, ⟨d', hd', hrule⟩, d'', hd'', hdata⟩
    exact ⟨_, flag, hflag, rfl, d, result, hd, hresult, d', rule, hd', hrule, d'', data, hd'', hdata, rfl⟩

theorem exists_of_failureOf? (h : failureOf? list = some r) : ∃ flag error kind, r = .failure flag error kind ∧
    Document.member? "success" list = some (some (.bool flag)) := by
  simp only [failureOf?, Option.bind_eq_bind, bind_member?_eq_some_iff, asBool?_eq_some_iff] at h
  obtain ⟨_, flag, hflag, rfl, _, error, -, -, hkind⟩ := h
  simp only [Option.bind_eq_some_iff] at hkind
  obtain ⟨_, -, kind, -, hr⟩ := hkind
  cases hr
  exact ⟨flag, error, kind, rfl, hflag⟩

/-- A reply is read as a result if the members of a result are there, and as an error otherwise. -/
theorem reports_of_read (hvalues : ∀ p ∈ list, ∃ v, p.2.value? maxMemberNesting = some v)
    (h : (successOf? list <|> failureOf? list) = some r) : r.Reports list := by
  -- a member of a result that is there once is a value, so nothing else stands in the way of this form
  have hread : ∀ name, (list.map Prod.fst).count name = 1 →
      ∃ v d, Document.member? name list = some (some d) ∧ d.value? maxMemberNesting = some v := by
    intro name hname
    have hmem : name ∈ list.map Prod.fst := List.count_pos_iff.1 (by omega)
    obtain ⟨⟨_, d⟩, hd, rfl⟩ := List.mem_map.1 hmem
    obtain ⟨v, hv⟩ := hvalues _ hd
    exact ⟨v, d, Document.member?_eq_some_iff.2 ⟨hname, hd⟩, hv⟩
  rw [Option.orElse_eq_orElse, Option.orElse_eq_or, Option.or_eq_some_iff] at h
  rcases h with hsuccess | ⟨hnone, hfailure⟩
  · obtain ⟨flag, result, rule, data, rfl, hflag, ⟨d, hd, hresult⟩, ⟨d', hd', hrule⟩, d'', hd'', hdata⟩ :=
      successOf?_eq_some_iff.1 hsuccess
    rw [Document.member?_eq_some_iff] at hflag hd hd' hd''
    refine ⟨hflag.1, hflag.2, ⟨fun _ => ?_, fun _ => rfl⟩, ⟨fun _ => rfl, fun _ => rfl⟩, ?_⟩
    · simp [hd.1, hd'.1, hd''.1]
    · rintro v ⟨⟩
      exact ⟨d, hd.2, hresult⟩
  · obtain ⟨flag, error, kind, rfl, hflag⟩ := exists_of_failureOf? hfailure
    have hflag' := Document.member?_eq_some_iff.1 hflag
    refine ⟨hflag'.1, hflag'.2, ⟨nofun, fun hnames => ?_⟩, ⟨nofun, nofun⟩, nofun⟩
    obtain ⟨result, d, hresult⟩ := hread "result" (hnames _ (by simp))
    obtain ⟨rule, d', hrule⟩ := hread "rule" (hnames _ (by simp))
    obtain ⟨data, d'', hdata⟩ := hread "data" (hnames _ (by simp))
    have hsome := successOf?_eq_some_iff.2
      ⟨flag, result, rule, data, rfl, hflag, ⟨d, hresult⟩, ⟨d', hrule⟩, d'', hdata⟩
    rw [hnone] at hsome
    cases hsome

theorem exists_reports {text : String} (h : read? text = some r) :
    ∃ list, (Document.read? text).bind (Document.members? []) = some list ∧ r.Reports list := by
  obtain ⟨d, hd, hr⟩ := Option.bind_eq_some_iff.1 h
  rw [hd, Option.bind_some]
  cases d with
  | object fields =>
    simp only [ofDocument?, Option.bind_eq_bind, Option.bind_eq_some_iff] at hr
    obtain ⟨w, hw, list, hlist, hr⟩ := hr
    exact ⟨list, hlist, reports_of_read (Document.exists_value?_of_mem hw hlist) hr⟩
  | _ => cases hr

/-- The replies that are made: a result under a flag that is set, an error under one that is not. -/
inductive Made : ProcessReply → Prop
  | result (result rule data : Json) : Made (.success true result rule data)
  | error (error : String) (kind : Option String) : Made (.failure false error kind)

theorem Made.reports (h : r.Made) : r.isSuccess = r.flag ∧ (r.result?.isSome ↔ r.flag = true) := by
  cases h with
  | result => exact ⟨rfl, by simp [result?, flag]⟩
  | error => exact ⟨rfl, by simp [result?, flag]⟩

/-- The service makes no other replies. -/
theorem made_answer {σ : Type} (task : Task) (evaluate : σ → Trail σ (Result Json)) (q : ProcessRequest) (s : σ) :
    (Service.answer task evaluate q s).result.Made := by
  cases htruthy : q.rule.truthy with
  | false =>
    rw [Service.answer_of_falsy htruthy]
    exact .error _ _
  | true =>
    cases hresult : (evaluate s).result with
    | ok value =>
      rw [Service.answer_of_ok htruthy hresult]
      exact .result _ _ _
    | error e =>
      rw [Service.answer_of_error htruthy hresult]
      exact .error _ _

/-- A reply that is read keeps the flag of its text, and its form is told by the members of a result, each of which must
be there once; other members and their order do not matter. Where the flag agrees with these members, the reply
reports it. So it does where the text is that of a reply that was made. -/
theorem read_reports :
    (∀ text r, read? text = some r →
      ∃ list, (Document.read? text).bind (Document.members? []) = some list ∧ r.Reports list ∧
        ((r.flag = true ↔ ∀ name ∈ ["result", "rule", "data"], (list.map Prod.fst).count name = 1) →
          r.isSuccess = r.flag ∧ (r.result?.isSome ↔ r.flag = true))) ∧
    ∀ r : ProcessReply, r.Made → (∀ v ∈ r.values, v.Portable) →
      ∃ r', read? r.toJson.text = some r' ∧ r'.isSuccess = r'.flag ∧ (r'.result?.isSome ↔ r'.flag = true) := by
  refine ⟨fun text r h => ?_, fun r hmade hvalues => ⟨r, ?_, hmade.reports⟩⟩
  · obtain ⟨list, hlist, hreports⟩ := exists_reports h
    refine ⟨list, hlist, hreports, fun hflag => ?_⟩
    have hsuccess : r.isSuccess = true ↔ r.flag = true := hreports.isSuccess_iff.trans hflag.symm
    exact ⟨Bool.eq_iff_iff.2 hsuccess, hreports.result_iff.trans hsuccess⟩
  · rw [read?, Document.read?_text, Option.bind_some, ofDocument?_toJson hvalues]

/-- A text with an error beside a result, the flag last: it is read as a result, which the flag says too. -/
theorem read_reports_both :
    (∃ r, read? "\x7b\"error\":\"\",\"result\":null,\"rule\":2,\"data\":3,\"success\":true\x7d" = some r ∧
      r.isSuccess = r.flag ∧ (r.result?.isSome ↔ r.flag = true)) ∧
    ∃ r, read? (ProcessReply.failure false "" none).toJson.text = some r ∧
      r.isSuccess = r.flag ∧ (r.result?.isSome ↔ r.flag = true) := by
  obtain ⟨text, htext⟩ : ∃ text : String,
      text = "\x7b\"error\":\"\",\"result\":null,\"rule\":2,\"data\":3,\"success\":true\x7d" := ⟨_, rfl⟩
  have hflag : (read? text).map flag = some true := by
    rw [htext]
    decide +kernel
  have hnames : ((Document.read? text).bind (Document.members? [])).map (fun list => list.map Prod.fst) =
      some ["error", "result", "rule", "data", "success"] := by
    rw [htext]
    decide +kernel
  obtain ⟨r, hr, hset⟩ := Option.map_eq_some_iff.1 hflag
  obtain ⟨list, hlist, -, hreports⟩ := read_reports.1 text r hr
  rw [hlist, Option.map_some, Option.some.injEq] at hnames
  refine ⟨⟨r, htext ▸ hr, hreports ?_⟩, read_reports.2 _ (.error "" none) nofun⟩
  rw [hset, hnames]
  exact ⟨fun _ => by decide, fun _ => rfl⟩

/-- A result under the flag of a failure is read as a result. -/
theorem read?_crossed :
    (read? "\x7b\"success\":false,\"result\":1,\"rule\":2,\"data\":3\x7d").map
      (fun r => (r.flag, r.isSuccess, r.result?.isSome)) = some (false, true, true) := by
  decide +kernel

end ProcessReply
end JsonRules
