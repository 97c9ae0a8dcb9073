import SearchPipeline.Proofs.Inventory.Mentions

namespace SearchPipeline

namespace FieldName

variable {text : List Char}

-- What a text that reads like a field is made of.
structure Plausible (text : List Char) : Prop where
  nonempty : text ≠ []
  chars : ∀ c ∈ text, c.isAlpha = true ∨ c.isDigit = true ∨ c = '_' ∨ c = '.'
  -- neither a number nor an address
  named : (∃ c ∈ text, c.isDigit = true) → ∃ c ∈ text, c.isAlpha = true ∨ c = '_'
  whole : (∃ c ∈ text, c.isDigit = true) → text.head? ≠ some '.'
  ending : ∀ ending ∈ fileEndings, ¬ ending <:+ Text.lower text

theorem plausible_of_isLikely (h : isLikely text = true) : Plausible text := by
  simp only [isLikely, Bool.and_eq_true, Bool.not_eq_true'] at h
  obtain ⟨⟨⟨⟨⟨hempty, -⟩, hdigit⟩, hpoint⟩, hending⟩, hchars⟩ := h
  have hany : (∃ c ∈ text, c.isDigit = true) → text.any Char.isDigit = true := List.any_eq_true.2
  constructor
  case nonempty =>
    rintro rfl
    cases hempty
  case chars =>
    intro c hc
    have hchar := List.all_eq_true.1 hchars c hc
    simpa [isFieldChar, Char.isAlphanum, or_assoc] using hchar
  case named =>
    intro hsome
    simpa [hany hsome] using hdigit
  case whole =>
    intro hsome hhead
    cases text with
    | nil => cases hhead
    | cons c cs =>
        obtain rfl := Option.some.inj hhead
        simp [hany hsome, Text.headIs] at hpoint
  case ending =>
    intro ending hmem
    have hnot := List.any_eq_false.1 hending ending hmem
    rwa [List.isSuffixOf_iff_suffix] at hnot

end FieldName

-- The findings of some stages: what counts as input reads like a field and is no command, and each
-- dataset comes with its model.
structure Finding.Sound (findings : List Finding) : Prop where
  field : ∀ text, ⟨.inputField, text⟩ ∈ findings →
    FieldName.isLikely text.toList = true ∧ (Keyword.classify text).isCommand = false
  dataset : ∀ text, ⟨.dataset, text⟩ ∈ findings → ∃ model object, model ≠ "" ∧ object ≠ "" ∧
    text = model ++ "." ++ object ∧ ⟨.datamodel, model⟩ ∈ findings

namespace Finding.Sound

theorem nil : Sound [] := by
  constructor <;> simp

theorem append {first second : List Finding} (hfirst : Sound first) (hsecond : Sound second) :
    Sound (first ++ second) where
  field text hmem := by
    rcases List.mem_append.1 hmem with hmem | hmem
    · exact hfirst.field text hmem
    · exact hsecond.field text hmem
  dataset text hmem := by
    rcases List.mem_append.1 hmem with hmem | hmem
    · obtain ⟨model, object, hmodel, hobject, htext, hpair⟩ := hfirst.dataset text hmem
      exact ⟨model, object, hmodel, hobject, htext, List.mem_append_left _ hpair⟩
    · obtain ⟨model, object, hmodel, hobject, htext, hpair⟩ := hsecond.dataset text hmem
      exact ⟨model, object, hmodel, hobject, htext, List.mem_append_right _ hpair⟩

theorem settle {mentions : List Mention} (h : Mention.Paired mentions) (derived : List String) :
    Sound (Mention.settle derived mentions).1 where
  field text hmem := by
    rcases Mention.mem_settle hmem with hfound | ⟨field, hsame, -, -, hlikely, hcommand⟩
    · exact absurd hfound (h.field text)
    · cases hsame
      exact ⟨hlikely, hcommand⟩
  dataset text hmem := by
    rcases Mention.mem_settle hmem with hfound | ⟨field, hsame, -⟩
    · obtain ⟨model, object, hmodel, hobject, htext, hpair⟩ := h.dataset text hfound
      exact ⟨model, object, hmodel, hobject, htext, Mention.mem_settle_of_found hpair⟩
    · cases hsame

end Finding.Sound

namespace Query

variable (query : Query)

mutual

theorem stageFindings_sound (derived : List String) : (stage : Stage) →
    Finding.Sound (query.stageFindings derived stage).1
  | .mk _ command operations subquery _ => by
      rw [stageFindings_mk]
      exact (Finding.Sound.settle (query.paired_stage _ operations) _).append
        (bracketFindings_sound subquery)

theorem bracketFindings_sound : (subquery : Option Subquery) →
    Finding.Sound (query.bracketFindings subquery)
  | none => .nil
  | some (.mk opening later _) => by
      rw [bracketFindings, subqueryFindings]
      exact (stageFindings_sound [] opening).append (stagesFindings_sound _ later)

theorem stagesFindings_sound (derived : List String) : (stages : List Stage) →
    Finding.Sound (query.stagesFindings derived stages)
  | [] => by
      rw [stagesFindings]
      exact .nil
  | first :: rest => by
      rw [stagesFindings_cons]
      exact (stageFindings_sound derived first).append (stagesFindings_sound _ rest)

end

end Query

namespace MacroCall

-- A call has a name.
theorem after?_name {cs : List Char} {call : MacroCall} {count : Nat}
    (h : after? cs = some (call, count)) : call.name ≠ "" := by
  unfold after? at h
  dsimp only at h
  split at h
  · next hcall =>
    cases h
    cases cs with
    | nil => cases hcall.1
    | cons c cs =>
        have hopens : opensName c = true := hcall.1
        have hextends : extendsName c = true := by
          simp only [opensName, extendsName, Char.isAlphanum, Bool.or_eq_true] at hopens ⊢
          exact hopens.imp_left .inl
        simp [Text.classLength, Text.runLength, hextends]
  · cases h

theorem name_of_mem {skip : Nat} {cs : List Char} {call : MacroCall}
    (h : call ∈ callsFrom skip cs) : call.name ≠ "" := by
  induction cs generalizing skip with
  | nil => simp [callsFrom] at h
  | cons c cs ih =>
      unfold callsFrom at h
      split at h
      · exact ih h
      · split at h
        · split at h
          · next hafter =>
            rcases List.mem_cons.1 h with rfl | h
            · exact after?_name hafter
            · exact ih h
          · exact ih h
        · exact ih h

theorem clean_names (query : String) : Inventory.Clean (names query) := by
  have hfold : ∀ (calls : List MacroCall) (found : List String), (∀ call ∈ calls, call.name ≠ "") →
      calls.foldl (fun found call => if call.name ∈ found then found else found ++ [call.name])
        found = (calls.map (·.name)).foldl Inventory.addNew found := by
    intro calls
    induction calls with
    | nil => intro found _; rfl
    | cons call calls ih =>
        intro found hname
        rw [List.forall_mem_cons] at hname
        rw [List.map_cons, List.foldl_cons, List.foldl_cons, ih _ hname.2, Inventory.addNew]
        simp only [hname.1, false_or]
  rw [names, calls, hfold _ _ fun call hmem => name_of_mem hmem]
  exact Inventory.Clean.foldl ⟨List.nodup_nil, by simp⟩ _

end MacroCall

namespace Inventory

-- What holds of every inventory.
structure WellFormed (inventory : Inventory) : Prop where
  listed : ∀ category, Clean (inventory.listed category)
  macros : Clean inventory.macros
  fields : ∀ field ∈ inventory.inputFields, FieldName.isLikely field.toList = true ∧
    FieldName.Plausible field.toList ∧ (Keyword.classify field).isCommand = false
  datasets : ∀ dataset ∈ inventory.datasets, ∃ model ∈ inventory.datamodels, ∃ object, object ≠ "" ∧
    dataset = model ++ "." ++ object

theorem wellFormed_of_findings {findings : List Finding} (h : Finding.Sound findings)
    {macros : List String} (hmacros : Clean macros) :
    WellFormed { ofFindings findings with macros } where
  listed category := by
    have hclean := clean_collect findings category
    rw [← listed_ofFindings] at hclean
    cases category <;> exact hclean
  macros := hmacros
  fields field hmem := by
    obtain ⟨-, hfinding⟩ := mem_collect.1 hmem
    obtain ⟨hlikely, hcommand⟩ := h.field field hfinding
    exact ⟨hlikely, FieldName.plausible_of_isLikely hlikely, hcommand⟩
  datasets dataset hmem := by
    obtain ⟨-, hfinding⟩ := mem_collect.1 hmem
    obtain ⟨model, object, hmodel, hobject, htext, hpair⟩ := h.dataset dataset hfinding
    exact ⟨model, mem_collect.2 ⟨hmodel, hpair⟩, object, hobject, htext⟩

-- Whatever is said of a query is well-formed, also when only its macros can be said.
theorem discover_wellFormed (source : String) (inventory : Inventory)
    (h : discover source = .ok inventory) : inventory.WellFormed := by
  have hmacros := MacroCall.clean_names source
  unfold discover at h
  dsimp only at h
  split at h
  · next query hparse =>
    cases h
    exact wellFormed_of_findings (query.stagesFindings_sound [] query.pipeline.stages) hmacros
  · split at h
    · cases h
    · cases h
      exact wellFormed_of_findings .nil hmacros

-- A model, a dataset of it and two of its fields.
theorem discover_wellFormed_models : ∃ inventory,
    discover "| tstats count from datamodel=Web.Proxy where Web.status=200 by Web.src_ip" =
      .ok inventory ∧ inventory.datamodels = ["Web"] ∧ inventory.datasets = ["Web.Proxy"] ∧
    inventory.inputFields = ["Web.status", "Web.src_ip"] ∧ inventory.WellFormed := by
  have hread : (discover
      "| tstats count from datamodel=Web.Proxy where Web.status=200 by Web.src_ip").toOption.any
        (fun inventory => inventory.datamodels == ["Web"] && inventory.datasets == ["Web.Proxy"] &&
          inventory.inputFields == ["Web.status", "Web.src_ip"]) = true := by decide +kernel
  cases hdiscover : discover
      "| tstats count from datamodel=Web.Proxy where Web.status=200 by Web.src_ip" with
  | error errors =>
      rw [hdiscover] at hread
      cases hread
  | ok inventory =>
      rw [hdiscover] at hread
      simp only [Except.toOption, Option.any_some, Bool.and_eq_true, beq_iff_eq] at hread
      exact ⟨inventory, rfl, hread.1.1, hread.1.2, hread.2, discover_wellFormed _ _ hdiscover⟩

end Inventory

end SearchPipeline
