import SearchPipeline.Proofs.Inventory.Operands
import SearchPipeline.Proofs.Mapping.WellFormed

namespace SearchPipeline.Mapping

-- A part of a configuration that is checked by itself.
inductive Element where
  | mapping (mapping : FieldMapping)
  | condition (condition : Condition)
  | rule (rule : Rule)
  | field (field : ModelField)
  | model (model : ModelMapping)

-- The parts of a configuration and their places. A condition inside a condition has none.
inductive Config.Has (config : Config) : List Step → Element → Prop where
  | mapping {index : Nat} {mapping : FieldMapping} : config.mappings[index]? = some mapping →
      Has config [⟨"mapping", index⟩] (.mapping mapping)
  | rule {index : Nat} {rule : Rule} : config.rules[index]? = some rule →
      Has config [⟨"rule", index⟩] (.rule rule)
  | model {index : Nat} {model : ModelMapping} : config.datamodels[index]? = some model →
      Has config [⟨"datamodel", index⟩] (.model model)
  | ruleMapping {place : List Step} {rule : Rule} {index : Nat} {mapping : FieldMapping} :
      Has config place (.rule rule) → rule.mappings[index]? = some mapping →
      Has config (place ++ [⟨"mapping", index⟩]) (.mapping mapping)
  | ruleCondition {place : List Step} {rule : Rule} {index : Nat} {condition : Condition} :
      Has config place (.rule rule) → rule.conditions[index]? = some condition →
      Has config (place ++ [⟨"condition", index⟩]) (.condition condition)
  | modelField {place : List Step} {model : ModelMapping} {index : Nat} {field : ModelField} :
      Has config place (.model model) → model.fields[index]? = some field →
      Has config (place ++ [⟨"field_mapping", index⟩]) (.field field)
  | modelRule {place : List Step} {model : ModelMapping} {index : Nat} {rule : Rule} :
      Has config place (.model model) → model.rules[index]? = some rule →
      Has config (place ++ [⟨"rule", index⟩]) (.rule rule)

-- A check that names the place of what it checks, or a place below.
def Placed {α : Type} (check : List Step → α → List Violation) : Prop :=
  ∀ place item, ∀ violation ∈ check place item, place <+: violation.place

section Places

variable {place : List Step} {step : Step} {violation : Violation}

theorem mem_need {fault : Fault} {present : Bool} :
    violation ∈ need place fault present ↔ present = false ∧ violation = ⟨place, fault⟩ := by
  cases present <;> simp [need]

theorem mem_eachItem {α : Type} {list : String} {check : List Step → α → List Violation}
    {items : List α} : violation ∈ eachItem list place check items ↔
      ∃ index item, items[index]? = some item ∧
        violation ∈ check (place ++ [⟨list, index⟩]) item := by
  simp only [eachItem, List.mem_flatMap, Prod.exists, List.mem_zipIdx_iff_getElem?]
  constructor
  · rintro ⟨item, index, hget, hmem⟩
    exact ⟨index, item, hget, hmem⟩
  · rintro ⟨index, item, hget, hmem⟩
    exact ⟨item, index, hget, hmem⟩

theorem placed_need {fault : Fault} {present : Bool}
    (h : violation ∈ need place fault present) : place <+: violation.place := by
  obtain ⟨-, rfl⟩ := mem_need.1 h
  exact List.prefix_refl place

theorem Placed.items {α : Type} {list : String} {check : List Step → α → List Violation}
    {items : List α} (hcheck : Placed check) (h : violation ∈ eachItem list place check items) :
    place <+: violation.place := by
  obtain ⟨index, item, -, hmem⟩ := mem_eachItem.1 h
  exact (List.prefix_append place _).trans (hcheck _ _ _ hmem)

theorem FieldMapping.placed : Placed FieldMapping.violations := by
  intro place mapping violation h
  rcases List.mem_append.1 h with h | h
  · exact placed_need h
  · exact placed_need h

theorem ModelField.placed : Placed ModelField.violations := by
  intro place field violation h
  rcases List.mem_append.1 h with h | h
  · exact placed_need h
  · exact placed_need h

theorem step_eq_of_prefix {other : Step} {whole : List Step} (h : place ++ [step] <+: whole)
    (hother : place ++ [other] <+: whole) : step = other := by
  have hsame := (List.prefix_of_prefix_length_le h hother (by simp)).eq_of_length (by simp)
  simpa using hsame

-- What is missing at a place is not missing below it.
theorem mem_need_below (hbelow : place ++ [step] <+: violation.place) {fault : Fault}
    {present : Bool} : violation ∈ need place fault present ↔ False := by
  refine iff_false_intro fun h => ?_
  obtain ⟨-, rfl⟩ := mem_need.1 h
  have hlength := hbelow.length_le
  simp only [List.length_append, List.length_singleton] at hlength
  omega

-- Below one item of a list there are only the violations of this item.
theorem Placed.mem_below {α : Type} {list : String} {check : List Step → α → List Violation}
    {items : List α} (hcheck : Placed check) (hbelow : place ++ [step] <+: violation.place) :
    violation ∈ eachItem list place check items ↔ list = step.list ∧
      ∃ item, items[step.index]? = some item ∧ violation ∈ check (place ++ [step]) item := by
  rw [mem_eachItem]
  constructor
  · rintro ⟨index, item, hget, hmem⟩
    obtain rfl := step_eq_of_prefix hbelow (hcheck _ _ _ hmem)
    exact ⟨rfl, item, hget, hmem⟩
  · rintro ⟨rfl, item, hget, hmem⟩
    exact ⟨step.index, item, hget, hmem⟩

end Places

section Texts

variable {place other : List Step}

-- A text begins with that of a place, and a step below it or the end of the place follows.
def Names (place : List Step) (report : String) : Prop :=
  ∃ behind, report = Violation.placeText place ++ "." ++ behind ∨
    report = Violation.placeText place ++ ": " ++ behind

def Step.text (step : Step) : String := step.list ++ "[" ++ toString step.index ++ "]"

-- What follows the first step in the text of a place.
def textBehind : List Step → String
  | [] => ""
  | rest => "." ++ Violation.placeText rest

theorem placeText_eq (place : List Step) :
    Violation.placeText place = ".".intercalate (place.map Step.text) := rfl

theorem placeText_cons (step : Step) (rest : List Step) :
    Violation.placeText (step :: rest) = step.text ++ textBehind rest := by
  cases rest with
  | nil => simp [placeText_eq, textBehind]
  | cons next rest =>
      rw [textBehind, placeText_eq, placeText_eq, List.map_cons, List.map_cons,
        String.intercalate_cons_cons, String.append_assoc]
      nofun

theorem placeText_append (hplace : place ≠ []) (hother : other ≠ []) :
    Violation.placeText (place ++ other) =
      Violation.placeText place ++ "." ++ Violation.placeText other := by
  rw [placeText_eq, List.map_append,
    String.intercalate_append_of_ne_nil (by simpa using hplace) (by simpa using hother)]
  rfl

theorem not_mem_index (index : Nat) : ']' ∉ Nat.toDigits 10 index := by
  intro hmem
  exact absurd (Nat.isDigit_of_mem_toDigits (by omega) (by omega) hmem) (by decide)

theorem Step.toList_text (step : Step) : step.text.toList =
    step.list.toList ++ '[' :: (Nat.toDigits 10 step.index ++ [']']) := by
  simp [Step.text, toString]

-- The text of a step tells its list and its index, whatever follows.
theorem Step.text_append_inj {step next : Step} {rest more : String}
    (hstep : '[' ∉ step.list.toList) (hnext : '[' ∉ next.list.toList)
    (h : step.text ++ rest = next.text ++ more) : step = next ∧ rest = more := by
  have hchars := congrArg String.toList h
  simp only [String.toList_append, Step.toList_text, List.append_assoc, List.cons_append,
    List.nil_append] at hchars
  have hlist := congrArg (Text.cut? ['[']) hchars
  rw [Text.cut?_append_cons hstep, Text.cut?_append_cons hnext] at hlist
  obtain ⟨hlist, hbehind⟩ := Prod.mk.inj (Option.some.inj hlist)
  have hindex := congrArg (Text.cut? [']']) hbehind
  rw [Text.cut?_append_cons (not_mem_index _), Text.cut?_append_cons (not_mem_index _)] at hindex
  obtain ⟨hindex, hrest⟩ := Prod.mk.inj (Option.some.inj hindex)
  have hindex := congrArg (Nat.ofDigitChars 10 · 0) hindex
  simp only [Nat.ofDigitChars_toDigits (show 1 < 10 by decide) (Nat.le_refl 10)] at hindex
  obtain ⟨list, index⟩ := step
  obtain ⟨nextList, nextIndex⟩ := next
  cases String.toList_inj.1 hlist
  cases hindex
  exact ⟨rfl, String.toList_inj.1 hrest⟩

-- A place whose text stands in front in a report leads to what the report is about.
theorem prefix_of_placeText {mark behind detail : String} (hplace : place ≠ [])
    (hne : other ≠ []) (hplain : ∀ step ∈ place, '[' ∉ step.list.toList)
    (hother : ∀ step ∈ other, '[' ∉ step.list.toList)
    (h : Violation.placeText other ++ ": " ++ detail =
      Violation.placeText place ++ mark ++ behind) : place <+: other := by
  induction place generalizing other with
  | nil => exact absurd rfl hplace
  | cons step rest ih =>
      obtain ⟨next, more, rfl⟩ := List.exists_cons_of_ne_nil hne
      simp only [placeText_cons, String.append_assoc] at h
      obtain ⟨rfl, hbehind⟩ := Step.text_append_inj (hother _ (.head _)) (hplain _ (.head _)) h
      refine List.cons_prefix_cons.2 ⟨rfl, ?_⟩
      cases rest with
      | nil => exact List.nil_prefix
      | cons below rest =>
          cases more with
          | nil =>
              -- the other report is at its end, where this one goes on
              have hhead := congrArg (·.toList.head?) hbehind
              simp [textBehind] at hhead
          | cons further more =>
              simp only [textBehind, String.append_assoc, String.append_right_inj] at hbehind
              refine ih nofun nofun (fun step hmem => hplain step (.tail _ hmem))
                (fun step hmem => hother step (.tail _ hmem)) ?_
              simpa only [String.append_assoc] using hbehind

-- A report names the places on the way to what it is about, and no other ones.
theorem names_message_iff {fault : Fault} (hplace : place ≠ []) (hne : other ≠ [])
    (hplain : ∀ step ∈ place, '[' ∉ step.list.toList)
    (hother : ∀ step ∈ other, '[' ∉ step.list.toList) :
    Names place (Violation.message ⟨other, fault⟩) ↔ place <+: other := by
  have hmessage : Violation.message ⟨other, fault⟩ =
      Violation.placeText other ++ ": " ++ fault.message := by
    rw [Violation.message, if_neg (by simpa using hne)]
  rw [hmessage]
  constructor
  · rintro ⟨behind, h | h⟩
    · exact prefix_of_placeText hplace hne hplain hother h
    · exact prefix_of_placeText hplace hne hplain hother h
  · rintro ⟨below, rfl⟩
    by_cases hbelow : below = []
    · exact ⟨fault.message, .inr (by rw [hbelow, List.append_nil])⟩
    · refine ⟨Violation.placeText below ++ ": " ++ fault.message, .inl ?_⟩
      simp only [placeText_append hplace hbelow, String.append_assoc]

end Texts

section Locations

variable {config : Config} {place : List Step} {element : Element} {violation : Violation}

theorem Config.Has.ne_nil (h : config.Has place element) : place ≠ [] := by
  cases h <;> simp

theorem Config.Has.plain (h : config.Has place element) :
    ∀ step ∈ place, '[' ∉ step.list.toList := by
  have hlast : ∀ {list : String} {index : Nat} {step : Step}, '[' ∉ list.toList →
      step ∈ [(⟨list, index⟩ : Step)] → '[' ∉ step.list.toList := by
    intro list index step hlist hmem
    obtain rfl := List.mem_singleton.1 hmem
    exact hlist
  induction h with
  | mapping | rule | model => exact fun step hmem => hlast (by decide) hmem
  | ruleMapping _ _ ih | ruleCondition _ _ ih | modelField _ _ ih | modelRule _ _ ih =>
      intro step hmem
      rcases List.mem_append.1 hmem with hmem | hmem
      · exact ih step hmem
      · exact hlast (by decide) hmem

-- What a check finds in a configuration is placed at some part of it.
def Locates {α : Type} (config : Config) (check : List Step → α → List Violation)
    (part : α → Element) : Prop :=
  ∀ place item, config.Has place (part item) →
    ∀ violation ∈ check place item, ∃ inner, config.Has violation.place inner

theorem Config.Has.locates_need (h : config.Has place element) {fault : Fault} {present : Bool}
    (hmem : violation ∈ need place fault present) : ∃ inner, config.Has violation.place inner := by
  obtain ⟨-, rfl⟩ := mem_need.1 hmem
  exact ⟨element, h⟩

theorem Locates.items {α : Type} {list : String} {check : List Step → α → List Violation}
    {part : α → Element} {items : List α} (hcheck : Locates config check part) (place : List Step)
    (hitems : ∀ {index item}, items[index]? = some item →
      config.Has (place ++ [⟨list, index⟩]) (part item))
    (hmem : violation ∈ eachItem list place check items) :
    ∃ inner, config.Has violation.place inner := by
  obtain ⟨index, item, hget, hmem⟩ := mem_eachItem.1 hmem
  exact hcheck _ item (hitems hget) violation hmem

theorem locates_mapping (config : Config) : Locates config FieldMapping.violations .mapping := by
  intro place mapping h violation hmem
  rcases List.mem_append.1 hmem with hmem | hmem
  · exact h.locates_need hmem
  · exact h.locates_need hmem

theorem locates_field (config : Config) : Locates config ModelField.violations .field := by
  intro place field h violation hmem
  rcases List.mem_append.1 hmem with hmem | hmem
  · exact h.locates_need hmem
  · exact h.locates_need hmem

-- Nothing in the report that a version is missing can be taken for a place.
theorem not_names_version (hplace : place ≠ []) :
    ¬Names place (Violation.message ⟨[], .versionMissing⟩) := by
  intro h
  have hbracket : '[' ∈ (Violation.message ⟨[], .versionMissing⟩).toList := by
    obtain ⟨step, rest, rfl⟩ := List.exists_cons_of_ne_nil hplace
    obtain ⟨behind, h | h⟩ := h
    · rw [h, placeText_cons]
      simp [Step.toList_text]
    · rw [h, placeText_cons]
      simp [Step.toList_text]
  exact absurd hbracket (by decide)

end Locations

section Attribution

variable [Pattern.Engine] {config : Config} {place : List Step} {step : Step} {element : Element}
  {violation : Violation}

namespace Element

def WellFormed : Element → Prop
  | mapping m => m.WellFormed
  | condition c => c.WellFormed
  | rule r => r.WellFormed
  | field f => f.WellFormed
  | model m => m.WellFormed

def violations (place : List Step) : Element → List Violation
  | mapping m => m.violations place
  | condition c => c.violations place
  | rule r => r.violations place
  | field f => f.violations place
  | model m => m.violations place

end Element

theorem Condition.placed : Placed Condition.violations := by
  intro place condition violation h
  obtain ⟨fault, -, rfl⟩ := List.mem_map.1 h
  exact List.prefix_refl place

theorem Rule.placed : Placed Rule.violations := by
  intro place rule violation h
  simp only [Rule.violations, List.mem_append] at h
  rcases h with (((h | h) | h) | h) | h
  · exact placed_need h
  · exact placed_need h
  · exact placed_need h
  · exact FieldMapping.placed.items h
  · exact Condition.placed.items h

theorem ModelMapping.placed : Placed ModelMapping.violations := by
  intro place model violation h
  simp only [ModelMapping.violations, List.mem_append] at h
  rcases h with ((h | h) | h) | h
  · exact placed_need h
  · exact placed_need h
  · exact ModelField.placed.items h
  · exact Rule.placed.items h

theorem Element.placed (element : Element) (h : violation ∈ element.violations place) :
    place <+: violation.place := by
  cases element with
  | mapping m => exact FieldMapping.placed place m violation h
  | condition c => exact Condition.placed place c violation h
  | rule r => exact Rule.placed place r violation h
  | field f => exact ModelField.placed place f violation h
  | model m => exact ModelMapping.placed place m violation h

theorem Rule.mem_below {rule : Rule} (hbelow : place ++ [step] <+: violation.place) :
    violation ∈ rule.violations place ↔
      ("mapping" = step.list ∧ ∃ mapping, rule.mappings[step.index]? = some mapping ∧
        violation ∈ mapping.violations (place ++ [step])) ∨
      ("condition" = step.list ∧ ∃ condition, rule.conditions[step.index]? = some condition ∧
        violation ∈ condition.violations (place ++ [step])) := by
  simp only [Rule.violations, List.mem_append, mem_need_below hbelow,
    FieldMapping.placed.mem_below hbelow, Condition.placed.mem_below hbelow, false_or]

theorem ModelMapping.mem_below {model : ModelMapping}
    (hbelow : place ++ [step] <+: violation.place) :
    violation ∈ model.violations place ↔
      ("field_mapping" = step.list ∧ ∃ field, model.fields[step.index]? = some field ∧
        violation ∈ field.violations (place ++ [step])) ∨
      ("rule" = step.list ∧ ∃ rule, model.rules[step.index]? = some rule ∧
        violation ∈ rule.violations (place ++ [step])) := by
  simp only [ModelMapping.violations, List.mem_append, mem_need_below hbelow,
    ModelField.placed.mem_below hbelow, Rule.placed.mem_below hbelow, false_or]

theorem Config.mem_below {config : Config} (hbelow : [step] <+: violation.place) :
    violation ∈ config.violations ↔
      ("mapping" = step.list ∧ ∃ mapping, config.mappings[step.index]? = some mapping ∧
        violation ∈ mapping.violations [step]) ∨
      ("rule" = step.list ∧ ∃ rule, config.rules[step.index]? = some rule ∧
        violation ∈ rule.violations [step]) ∨
      ("datamodel" = step.list ∧ ∃ model, config.datamodels[step.index]? = some model ∧
        violation ∈ model.violations [step]) := by
  have hbelow : [] ++ [step] <+: violation.place := hbelow
  simp only [Config.violations, List.mem_append, mem_need_below hbelow,
    FieldMapping.placed.mem_below hbelow, Rule.placed.mem_below hbelow,
    ModelMapping.placed.mem_below hbelow, false_or, or_assoc, List.nil_append]

-- The violations of an element are those of the configuration that are placed at it or below.
theorem Config.Has.mem_violations_iff {config : Config} {element : Element}
    (h : config.Has place element) : violation ∈ element.violations place ↔
      violation ∈ config.violations ∧ place <+: violation.place := by
  -- placed below the step to the element, both sides come down to what that step leads to
  have hsplit : ∀ {whole : Prop} {path : List Step} {part : Element},
      (path <+: violation.place → (violation ∈ part.violations path ↔ whole)) →
      (violation ∈ part.violations path ↔ whole ∧ path <+: violation.place) :=
    fun {_ _ part} hpart => ⟨fun hmem => ⟨(hpart (part.placed hmem)).1 hmem, part.placed hmem⟩,
      fun hmem => (hpart hmem.2).2 hmem.1⟩
  induction h with
  | mapping hget | rule hget | model hget =>
      refine hsplit fun hbelow => ?_
      simp [Config.mem_below hbelow, hget, Element.violations]
  | ruleMapping hrule hget ih | ruleCondition hrule hget ih =>
      refine hsplit fun hbelow => ?_
      have hparent := ih.trans (and_iff_left ((List.prefix_append _ _).trans hbelow))
      rw [← hparent]
      simp [Element.violations, Rule.mem_below hbelow, hget]
  | modelField hmodel hget ih | modelRule hmodel hget ih =>
      refine hsplit fun hbelow => ?_
      have hparent := ih.trans (and_iff_left ((List.prefix_append _ _).trans hbelow))
      rw [← hparent]
      simp [Element.violations, ModelMapping.mem_below hbelow, hget]

theorem Element.violations_eq_nil_iff (place : List Step) (element : Element) :
    element.violations place = [] ↔ element.WellFormed := by
  cases element with
  | mapping m => exact m.violations_eq_nil_iff place
  | condition c => exact c.violations_eq_nil_iff place
  | rule r => exact r.violations_eq_nil_iff place
  | field f => exact f.violations_eq_nil_iff place
  | model m => exact m.violations_eq_nil_iff place

theorem locates_condition (config : Config) : Locates config Condition.violations .condition := by
  intro place condition h violation hmem
  obtain ⟨fault, -, rfl⟩ := List.mem_map.1 hmem
  exact ⟨_, h⟩

theorem locates_rule (config : Config) : Locates config Rule.violations .rule := by
  intro place rule h violation hmem
  simp only [Rule.violations, List.mem_append] at hmem
  rcases hmem with (((hmem | hmem) | hmem) | hmem) | hmem
  · exact h.locates_need hmem
  · exact h.locates_need hmem
  · exact h.locates_need hmem
  · exact (locates_mapping config).items place h.ruleMapping hmem
  · exact (locates_condition config).items place h.ruleCondition hmem

theorem locates_model (config : Config) : Locates config ModelMapping.violations .model := by
  intro place model h violation hmem
  simp only [ModelMapping.violations, List.mem_append] at hmem
  rcases hmem with ((hmem | hmem) | hmem) | hmem
  · exact h.locates_need hmem
  · exact h.locates_need hmem
  · exact (locates_field config).items place h.modelField hmem
  · exact (locates_rule config).items place h.modelRule hmem

-- A violation is that the version is missing, or it is placed at a part of the configuration.
theorem Config.exists_of_violation (h : violation ∈ config.violations) :
    (violation = ⟨[], .versionMissing⟩ ∧ config.version = "") ∨
      ∃ element, config.Has violation.place element := by
  simp only [Config.violations, List.mem_append] at h
  rcases h with ((h | h) | h) | h
  · obtain ⟨hversion, rfl⟩ := mem_need.1 h
    exact .inl ⟨rfl, by simpa using hversion⟩
  · exact .inr ((locates_mapping config).items [] .mapping h)
  · exact .inr ((locates_rule config).items [] .rule h)
  · exact .inr ((locates_model config).items [] .model h)

-- The texts that a check of the configuration reports.
def Config.reports (config : Config) : List String := config.violations.map Violation.message

-- A text of the report names the place of a part exactly when it is made for a violation that is
-- placed there or below.
theorem Config.Has.names_iff (h : config.Has place element) (hmem : violation ∈ config.violations) :
    Names place violation.message ↔ place <+: violation.place := by
  rcases Config.exists_of_violation hmem with ⟨rfl, -⟩ | ⟨inner, hinner⟩
  · refine iff_of_false (not_names_version h.ne_nil) fun hprefix => ?_
    exact h.ne_nil (List.prefix_nil.1 hprefix)
  · exact names_message_iff h.ne_nil hinner.ne_nil h.plain hinner.plain

theorem Config.Has.exists_report_iff (h : config.Has place element) :
    (∃ report ∈ config.reports, Names place report) ↔ ¬element.WellFormed := by
  rw [← element.violations_eq_nil_iff place]
  constructor
  · rintro ⟨report, hreport, hnames⟩
    obtain ⟨violation, hmem, rfl⟩ := List.mem_map.1 hreport
    exact List.ne_nil_of_mem (h.mem_violations_iff.2 ⟨hmem, (h.names_iff hmem).1 hnames⟩)
  · intro hne
    obtain ⟨violation, hviolation⟩ := List.exists_mem_of_ne_nil _ hne
    obtain ⟨hmem, hprefix⟩ := h.mem_violations_iff.1 hviolation
    exact ⟨_, List.mem_map_of_mem hmem, (h.names_iff hmem).2 hprefix⟩

-- Checking a configuration is sound and complete. It is valid exactly when all of it is well
-- formed; the report names the place of every part that is not, and of no other part; and every
-- text of the report is about such a part, or about a missing version.
theorem Config.reports_exact (config : Config) :
    (config.isValid = true ↔ config.WellFormed) ∧
    (∀ place element, config.Has place element →
      ((∃ report ∈ config.reports, Names place report) ↔ ¬element.WellFormed)) ∧
    ∀ report ∈ config.reports,
      (report = Fault.versionMissing.message ∧ config.version = "") ∨
      ∃ place element, config.Has place element ∧ ¬element.WellFormed ∧ Names place report := by
  refine ⟨config.isValid_iff, fun place element h => h.exists_report_iff, fun report hreport => ?_⟩
  obtain ⟨violation, hmem, rfl⟩ := List.mem_map.1 hreport
  rcases exists_of_violation hmem with ⟨rfl, hversion⟩ | ⟨element, helement⟩
  · exact .inl ⟨rfl, hversion⟩
  · have hnames := (helement.names_iff hmem).2 (List.prefix_refl _)
    exact .inr ⟨_, element, helement, helement.exists_report_iff.1 ⟨_, hreport, hnames⟩, hnames⟩

end Attribution

section Prefixes

attribute [local instance] Pattern.Engine.prefixes

-- Of the two conditions of a rule between data models, the second has a child without a field.
def Config.slipped : Config :=
  { version := "1"
    datamodels := [⟨"Web", "Traffic", [], [⟨"r", "", "",
      [.sourcetype .regex "^web", .combination .or [.fieldExists "a" true, .fieldExists "" true]],
      [⟨"a", "b"⟩], 0, true⟩]⟩] }

theorem Config.reports_exact_slipped :
    (∃ report ∈ slipped.reports,
      Names [⟨"datamodel", 0⟩, ⟨"rule", 0⟩, ⟨"condition", 1⟩] report) ∧
    (¬∃ report ∈ slipped.reports,
      Names [⟨"datamodel", 0⟩, ⟨"rule", 0⟩, ⟨"condition", 0⟩] report) ∧
    slipped.isValid = false ∧
    slipped.reports = ["datamodel[0].rule[0].condition[1]: child[1]: " ++
      "field is required for type field_exists"] := by
  obtain ⟨-, hplaces, -⟩ := slipped.reports_exact
  have hmodel : slipped.Has [⟨"datamodel", 0⟩] _ := .model rfl
  have hrule : slipped.Has [⟨"datamodel", 0⟩, ⟨"rule", 0⟩] _ := hmodel.modelRule rfl
  have hfirst := hplaces [⟨"datamodel", 0⟩, ⟨"rule", 0⟩, ⟨"condition", 0⟩] _
    (hrule.ruleCondition rfl)
  have hsecond := hplaces [⟨"datamodel", 0⟩, ⟨"rule", 0⟩, ⟨"condition", 1⟩] _
    (hrule.ruleCondition rfl)
  refine ⟨hsecond.2 fun hwell => ?_, fun hreport => hfirst.1 hreport ?_, ?_, ?_⟩
  · exact absurd (Condition.fault?_eq_none_iff.2 hwell) (by decide +kernel)
  · exact Condition.fault?_eq_none_iff.1 (by decide +kernel)
  · decide +kernel
  · decide +kernel

end Prefixes

end SearchPipeline.Mapping
