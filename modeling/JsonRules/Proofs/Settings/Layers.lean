import JsonRules.Proofs.Settings.Tree

/-!
# Settings override by layers

`Settings.load_layers`: each setting of a program is the value of the highest layer that sets it.
-/

namespace JsonRules
namespace Settings

open Setting

variable {layers : List (List (String × Setting))} {service : String} {env : Environment}
  {readFile : String → Option String}

/-! ### The layers of files -/

/-- The files that are there, and the layers that they give. -/
theorem exists_mapM_read? {paths : List String} (h : paths.mapM (fileLayer? readFile) = some layers) :
    ∃ layers', ((Id.run (paths.filterMapM fun path => firstFile? readFile (candidates path))).filterMap
        fun file => file.1.map (·, file.2)).mapM (fun file => file.1.read? file.2) = some layers' ∧
      ∀ root, layers'.foldl (fun root layer => overlay layer root) root =
        layers.foldl (fun root layer => overlay layer root) root := by
  induction paths generalizing layers with
  | nil =>
    cases h
    exact ⟨[], rfl, fun _ => rfl⟩
  | cons path rest ih =>
    simp only [List.mapM_cons, Option.bind_eq_bind, Option.bind_eq_some_iff] at h
    obtain ⟨layer, hlayer, others, hothers, hlayers⟩ := h
    cases hlayers
    obtain ⟨layers', hread, hfold⟩ := ih hothers
    unfold fileLayer? at hlayer
    rw [List.filterMapM_cons]
    cases hfile : (firstFile? readFile (candidates path) : Id _) with
    | none =>
      rw [hfile] at hlayer
      cases hlayer
      exact ⟨layers', hread, hfold⟩
    | some file =>
      obtain ⟨_ | format, text⟩ := file
      · rw [hfile] at hlayer
        cases hlayer
        exact ⟨layers', hread, hfold⟩
      · rw [hfile] at hlayer
        refine ⟨layer :: layers', ?_, fun root => hfold _⟩
        have hlayer : format.read? text = some layer := hlayer
        obtain ⟨known, hknown⟩ : ∃ known, known = (Id.run (rest.filterMapM fun path =>
            firstFile? readFile (candidates path))).filterMap fun file => file.1.map (·, file.2) := ⟨_, rfl⟩
        rw [← hknown] at hread
        have hcons : ((format, text) :: known).mapM (fun file => file.1.read? file.2) = some (layer :: layers') := by
          rw [List.mapM_cons, hlayer, hread]
          rfl
        rw [hknown] at hcons
        exact hcons

/-- Loading reads the settings off the layers upon what is built in. -/
theorem load?_eq (h : layers? readFile env service = some layers) : Id.run (load? readFile env service) =
    ofSetting? (layers.reverse.foldl (fun root layer => overlay layer root)
      (ofLayer (builtIn service (environmentOf env)))) := by
  simp only [layers?, Option.bind_eq_bind, Option.bind_eq_some_iff] at h
  obtain ⟨files, hfiles, hlayers⟩ := h
  cases hlayers
  obtain ⟨layers', hread, hfold⟩ := exists_mapM_read? hfiles
  have hload : Id.run (load? readFile env service) = ofFiles? env service
      (Id.run ((paths env service).filterMapM fun path => firstFile? readFile (candidates path))) := rfl
  rw [hload, ofFiles?]
  dsimp only
  rw [hread]
  have hall : ofLayers? (builtIn service (environmentOf env) :: layers' ++ [env.layer]) =
      ofSetting? (overlay env.layer (layers'.foldl (fun root layer => overlay layer root)
        (ofLayer (builtIn service (environmentOf env))))) := by
    rw [ofLayers?, List.foldl_append]
    rfl
  rw [List.reverse_cons, List.reverse_reverse, List.foldl_append, List.foldl_cons, List.foldl_nil, ← hfold]
  exact hall

/-! ### The tree of all layers -/

theorem isTable_of_overlay {layer : List (String × Setting)} {name : String} {root : Setting}
    (hname : name ∈ tableNames) (h : ∀ entry ∈ layer, GivesTables tableNames entry)
    (hroot : ∀ s, root.at? [name] = some s → s.IsTable) :
    ∀ s, (overlay layer root).at? [name] = some s → s.IsTable := by
  induction layer generalizing root with
  | nil => exact hroot
  | cons entry rest ih =>
    obtain ⟨hentry, hrest⟩ := List.forall_mem_cons.1 h
    have hnext : ∀ s, (overlay [entry] root).at? [name] = some s → s.IsTable := by
      intro s hs
      have hseen : seen? [name] (overlay [entry] root) = some s.outline := by rw [seen?, hs, Option.map_some]
      rw [seen?_entry (.key name) hentry, Option.or_eq_some_iff] at hseen
      rw [isTable_iff_outline]
      rcases hseen with hseen | ⟨-, hseen⟩
      · obtain ⟨s', hs', houtline⟩ := Option.map_eq_some_iff.1 hseen
        rw [← houtline]
        exact isTable_iff_outline.1 (hentry name hname s' hs')
      · obtain ⟨s', hs', houtline⟩ := Option.map_eq_some_iff.1 hseen
        rw [← houtline]
        exact isTable_iff_outline.1 (hroot s' hs')
    exact ih hrest hnext

/-- The tree of layers that fit, upon what is built in. -/
structure IsTreeOf (layers : List (List (String × Setting))) (service environment : String) (root : Setting) :
    Prop where
  tables : ∀ name ∈ tableNames, ∀ s, root.at? [name] = some s → s.IsTable
  seen : ∀ keys, IsSeenIn tableNames keys → root.seen? keys =
    ((highest? layers keys).map outline).or (seen? keys (ofLayer (builtIn service environment)))

theorem isTable_of_layers {name : String} {root : Setting} (hname : name ∈ tableNames)
    (h : ∀ layer ∈ layers, ∀ entry ∈ layer, GivesTables tableNames entry)
    (hroot : ∀ s, root.at? [name] = some s → s.IsTable) :
    ∀ s, (layers.foldl (fun root layer => overlay layer root) root).at? [name] = some s → s.IsTable := by
  induction layers generalizing root with
  | nil => exact hroot
  | cons layer rest ih =>
    obtain ⟨hlayer, hrest⟩ := List.forall_mem_cons.1 h
    exact ih hrest (isTable_of_overlay hname hlayer hroot)

theorem ofLayer_builtIn (service environment : String) : ofLayer (builtIn service environment) =
    .table [("service_name", .text service), ("environment", .text environment)] := by
  have hservice : SettingStep.ofName "service_name" = [.key "service_name"] := by decide
  have henvironment : SettingStep.ofName "environment" = [.key "environment"] := by decide
  simp [ofLayer, builtIn, overlay, hservice, henvironment, put, alterEntry, above, entries]

theorem isTreeOf_foldl (h : ∀ layer ∈ layers, Fits layer) (environment : String) :
    IsTreeOf layers service environment (layers.reverse.foldl (fun root layer => overlay layer root)
      (ofLayer (builtIn service environment))) := by
  have htables : ∀ layer ∈ layers.reverse, ∀ entry ∈ layer, GivesTables tableNames entry :=
    fun layer hlayer => (h layer (List.mem_reverse.1 hlayer)).tables
  constructor
  · intro name hname
    refine isTable_of_layers hname htables fun s hs => ?_
    rw [ofLayer_builtIn] at hs
    simp only [tableNames, List.mem_cons, List.not_mem_nil, or_false] at hname
    rcases hname with rfl | rfl <;> cases hs
  · intro keys hkeys
    rw [seen?_layers hkeys htables, List.reverse_reverse, highest?, List.map_findSome?]
    rfl

/-! ### Reading the tree -/

variable {root : Setting} {environment : String}

theorem textOr?_of_outline {members : List (String × Setting)} {name default : String} {value : Option Setting}
    (h : (members.lookup name).map outline = value.map outline) :
    textOr? default name members = (value.getD (.text default)).asText? := by
  unfold textOr?
  cases hlookup : members.lookup name with
  | none =>
    rw [hlookup, Option.map_none, eq_comm, Option.map_eq_none_iff] at h
    rw [h]
    rfl
  | some s =>
    rw [hlookup, Option.map_some, eq_comm, Option.map_eq_some_iff] at h
    obtain ⟨v, rfl, houtline⟩ := h
    rw [Option.getD_some, ← asText?_outline v, houtline, asText?_outline]

theorem bind_asCount?_of_outline {s value : Option Setting} (h : s.map outline = value.map outline) :
    s.bind asCount? = value.bind asCount? := by
  have hread : ∀ s : Option Setting, s.bind asCount? = (s.map outline).bind asCount? := by
    intro s
    cases s with
    | none => rfl
    | some s => exact (asCount?_outline s).symm
  rw [hread, h, ← hread]

namespace IsTreeOf

variable (h : IsTreeOf layers service environment root)
include h

/-- A text that is built in too. -/
theorem textOr?_eq {name default : String} (text : String)
    (hbuiltIn : seen? [name] (ofLayer (builtIn service environment)) = some (.text text)) :
    textOr? default name root.entries = ((highest? layers [name]).getD (.text text)).asText? := by
  have hseen := h.seen _ (.key name)
  have hvalue : ((highest? layers [name]).map outline).or (some (.text text)) =
      (some ((highest? layers [name]).getD (.text text))).map outline := by
    cases highest? layers [name] <;> rfl
  rw [hbuiltIn, seen?_key, hvalue] at hseen
  rw [textOr?_of_outline hseen, Option.getD_some]

theorem seen_member {name : String} (key : String) (hname : name ∈ tableNames) :
    (root.entries.lookup name).bind (seen? [key]) = (highest? layers [name, key]).map outline := by
  have hseen := h.seen _ (.member name key hname)
  have hbuiltIn : seen? [name, key] (ofLayer (builtIn service environment)) = none := by
    rw [ofLayer_builtIn]
    simp only [tableNames, List.mem_cons, List.not_mem_nil, or_false] at hname
    rcases hname with rfl | rfl <;> rfl
  rwa [hbuiltIn, Option.or_none, seen?_key_cons] at hseen

/-- Where settings stand in tables, there is a table or nothing. -/
theorem table_cases (name : String) (hname : name ∈ tableNames) :
    (root.entries.lookup name = none ∧ ∀ key, highest? layers [name, key] = none) ∨
      ∃ entries, root.entries.lookup name = some (.table entries) ∧
        ∀ key, (entries.lookup key).map outline = (highest? layers [name, key]).map outline := by
  have hmember := fun key => h.seen_member key hname
  cases hlookup : root.entries.lookup name with
  | none =>
    refine .inl ⟨rfl, fun key => ?_⟩
    have hnone := hmember key
    rwa [hlookup, Option.bind_none, eq_comm, Option.map_eq_none_iff] at hnone
  | some s =>
    have hat : root.at? [name] = some s := by
      rw [at?, hlookup]
      rfl
    obtain ⟨entries, rfl⟩ := h.tables name hname s hat
    refine .inr ⟨entries, rfl, fun key => ?_⟩
    rw [← hmember, hlookup, Option.bind_some, seen?_key]
    rfl

theorem observabilityOf?_eq : observabilityOf? (root.entries.lookup "observability") =
    ((highest? layers ["observability", "log_level"]).getD (.text "info")).asText?.bind fun level =>
      ((highest? layers ["observability", "log_format"]).getD (.text "pretty")).asText?.map fun format =>
        (level, format) := by
  rcases h.table_cases "observability" (by decide) with ⟨hlookup, hnone⟩ | ⟨entries, hlookup, hentries⟩
  · rw [hlookup, hnone, hnone]
    rfl
  · have hread : observabilityOf? (some (.table entries)) = (textOr? "info" "log_level" entries).bind fun level =>
        (textOr? "pretty" "log_format" entries).map fun format => (level, format) := by
      cases hlevel : textOr? "info" "log_level" entries with
      | none => simp [observabilityOf?, members?, hlevel]
      | some level =>
        cases hformat : textOr? "pretty" "log_format" entries <;>
          simp [observabilityOf?, members?, hlevel, hformat]
    rw [hlookup, hread, textOr?_of_outline (hentries "log_level"), textOr?_of_outline (hentries "log_format")]

/-- There are settings of the engine if some layer gives them. -/
theorem engine_eq_none_iff : root.entries.lookup "engine" = none ↔
    ∀ layer ∈ layers, (ofLayer layer).at? ["engine"] = none := by
  have hseen := h.seen _ (.key "engine")
  have hbuiltIn : seen? ["engine"] (ofLayer (builtIn service environment)) = none := by
    rw [ofLayer_builtIn]
    rfl
  rw [hbuiltIn, Option.or_none, seen?_key] at hseen
  rw [← Option.map_eq_none_iff, hseen, Option.map_eq_none_iff, highest?, List.findSome?_eq_none_iff]

theorem engineOf?_of_given (hgiven : ∃ layer ∈ layers, ((ofLayer layer).at? ["engine"]).isSome) :
    engineOf? (root.entries.lookup "engine") = (highest? layers ["engine", "max_depth"]).bind asCount? := by
  rcases h.table_cases "engine" (by decide) with ⟨hlookup, -⟩ | ⟨entries, hlookup, hentries⟩
  · obtain ⟨layer, hlayer, hengine⟩ := hgiven
    rw [h.engine_eq_none_iff.1 hlookup layer hlayer] at hengine
    cases hengine
  · have hread : engineOf? (some (.table entries)) = (entries.lookup "max_depth").bind asCount? := rfl
    rw [hlookup, hread, bind_asCount?_of_outline (hentries "max_depth")]

/-- The limit on depth is built in only where no layer gives settings of the engine. -/
theorem exists_engineOf?_eq (hfits : ∀ layer ∈ layers, Fits layer)
    (hdepth : (∀ layer ∈ layers, (ofLayer layer).at? ["engine"] = none) ∨
      ∃ layer ∈ layers, ((ofLayer layer).at? ["engine", "max_depth"]).isSome) :
    ∃ n, engineOf? (root.entries.lookup "engine") = some n ∧
      ((highest? layers ["engine", "max_depth"]).getD (.integer 256)).asCount? = some n := by
  rcases hdepth with hnone | hsome
  · have hlookup := h.engine_eq_none_iff.2 hnone
    rcases h.table_cases "engine" (by decide) with ⟨-, hvalue⟩ | ⟨entries, htable, -⟩
    · rw [hlookup, hvalue]
      exact ⟨256, rfl, rfl⟩
    · rw [hlookup] at htable
      cases htable
  · obtain ⟨s, hvalue⟩ := Option.isSome_iff_exists.1 (List.findSome?_isSome_iff.2 hsome)
    obtain ⟨layer, hlayer, hs⟩ := List.exists_of_findSome?_eq_some hvalue
    obtain ⟨n, hn⟩ := Option.isSome_iff_exists.1 ((hfits layer hlayer).depth s hs)
    have hgiven : ((ofLayer layer).at? ["engine"]).isSome := by
      rw [at?] at hs ⊢
      cases hlookup : (ofLayer layer).entries.lookup "engine" with
      | none =>
        rw [hlookup] at hs
        cases hs
      | some => rfl
    have hhighest : highest? layers ["engine", "max_depth"] = some s := hvalue
    rw [h.engineOf?_of_given ⟨layer, hlayer, hgiven⟩, hhighest]
    exact ⟨n, hn, hn⟩

end IsTreeOf

theorem exists_asText?_eq (hfits : ∀ layer ∈ layers, Fits layer) (place : List String) (hplace : place ∈ textPlaces)
    (default : String) : ∃ text, ((highest? layers place).getD (.text default)).asText? = some text := by
  cases hvalue : highest? layers place with
  | none => exact ⟨default, rfl⟩
  | some s =>
    obtain ⟨layer, hlayer, hs⟩ := List.exists_of_findSome?_eq_some hvalue
    exact Option.isSome_iff_exists.1 ((hfits layer hlayer).texts place hplace s hs)

/-- Layers that fit override each other key by key. The settings are loaded if no layer gives settings of the engine or
some layer limits the depth, and then each is the value of the highest layer that sets it, or the one that is built in.
They are not if there are settings of the engine and none limits the depth. -/
theorem load_layers (hlayers : layers? readFile env service = some layers) (hfits : ∀ layer ∈ layers, Fits layer) :
    ((∀ layer ∈ layers, (ofLayer layer).at? ["engine"] = none) ∨
        (∃ layer ∈ layers, ((ofLayer layer).at? ["engine", "max_depth"]).isSome) →
      ∃ s, Id.run (load? readFile env service) = some s ∧ TakenFrom layers service (environmentOf env) s) ∧
    ((∃ layer ∈ layers, ((ofLayer layer).at? ["engine"]).isSome) →
      (∀ layer ∈ layers, (ofLayer layer).at? ["engine", "max_depth"] = none) →
      Id.run (load? readFile env service) = none) := by
  obtain ⟨root, hroot⟩ : ∃ root, root = layers.reverse.foldl (fun root layer => overlay layer root)
      (ofLayer (builtIn service (environmentOf env))) := ⟨_, rfl⟩
  have htree : IsTreeOf layers service (environmentOf env) root := hroot ▸ isTreeOf_foldl hfits _
  have hload : Id.run (load? readFile env service) = ofSetting? root := hroot ▸ load?_eq hlayers
  have hservice : textOr? "json-logic" "service_name" root.entries = _ :=
    htree.textOr?_eq service (by rw [ofLayer_builtIn]; rfl)
  have henvironment : textOr? "development" "environment" root.entries = _ :=
    htree.textOr?_eq (environmentOf env) (by rw [ofLayer_builtIn]; rfl)
  rw [hload, ofSetting?]
  dsimp only
  rw [htree.observabilityOf?_eq, hservice, henvironment]
  constructor
  · intro hdepth
    obtain ⟨name, hname⟩ := exists_asText?_eq hfits ["service_name"] (by decide) service
    obtain ⟨selected, hselected⟩ := exists_asText?_eq hfits ["environment"] (by decide) (environmentOf env)
    obtain ⟨level, hlevel⟩ := exists_asText?_eq hfits ["observability", "log_level"] (by decide) "info"
    obtain ⟨format, hformat⟩ := exists_asText?_eq hfits ["observability", "log_format"] (by decide) "pretty"
    obtain ⟨n, hn, hcount⟩ := htree.exists_engineOf?_eq hfits hdepth
    rw [hname, hselected, hlevel, hformat, hn]
    exact ⟨_, rfl, ⟨hname, hselected, hcount, hlevel, hformat⟩⟩
  · intro hgiven hnone
    have hvalue : highest? layers ["engine", "max_depth"] = none := List.findSome?_eq_none_iff.2 hnone
    have hengine : engineOf? (root.entries.lookup "engine") = none := by
      rw [htree.engineOf?_of_given hgiven, hvalue]
      rfl
    simp [hengine]

/-- Four layers that share the table of log lines, and one that gives settings of the engine without a limit. -/
theorem load_layers_shared :
    let env : Environment := [("JSONLOGIC_ENV", "test"), ("JSONLOGIC_OBSERVABILITY__LOG_LEVEL", "debug")]
    let readFile (path : String) : Option String :=
      if path = "config/default.toml" then some "service_name = \"base\"\n[observability]\nlog_level = \"warn\"\n"
      else if path = "config/test.toml" then some "engine.max_depth = 8\n"
      else some "[engine]\nmax_depth = 32\n[observability]\nlog_format = \"json\"\n"
    let env' : Environment := [("JSONLOGIC_ENGINE__LIMIT", "8")]
    (∃ layers s, layers? readFile env "rules" = some layers ∧ Id.run (load? readFile env "rules") = some s ∧
      s = ⟨"base", "test", 32, "debug", "json"⟩ ∧ TakenFrom layers "rules" "test" s) ∧
    Id.run (load? (fun _ => none) env' "rules") = none := by
  intro env readFile env'
  have hfiles : (layers? readFile env "rules").any (fun layers => decide ((∀ layer ∈ layers, Fits layer) ∧
      ∃ layer ∈ layers, ((ofLayer layer).at? ["engine", "max_depth"]).isSome)) = true := by decide +kernel
  have hdefault : (layers? (fun _ => none) env' "rules").any (fun layers =>
      decide ((∀ layer ∈ layers, Fits layer) ∧ (∃ layer ∈ layers, ((ofLayer layer).at? ["engine"]).isSome) ∧
        ∀ layer ∈ layers, ((ofLayer layer).at? ["engine", "max_depth"]).isNone)) = true := by decide +kernel
  have hsettings : Id.run (load? readFile env "rules") = some ⟨"base", "test", 32, "debug", "json"⟩ := by
    decide +kernel
  constructor
  · obtain ⟨layers, hlayers, hfits⟩ := (Option.any_eq_true _ _).1 hfiles
    obtain ⟨hfits, hdepth⟩ := of_decide_eq_true hfits
    obtain ⟨s, hs, htaken⟩ := (load_layers hlayers hfits).1 (.inr hdepth)
    cases hs.symm.trans hsettings
    exact ⟨layers, _, hlayers, hsettings, rfl, htaken⟩
  · obtain ⟨layers, hlayers, hfits⟩ := (Option.any_eq_true _ _).1 hdefault
    obtain ⟨hfits, hengine, hdepth⟩ := of_decide_eq_true hfits
    exact (load_layers hlayers hfits).2 hengine fun layer hlayer => Option.isNone_iff_eq_none.1 (hdepth layer hlayer)

end Settings
end JsonRules
