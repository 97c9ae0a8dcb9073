import Mathlib.Data.Option.Basic
import Mathlib.Tactic.SplitIfs
import SearchPipeline.Mapping.Validate

namespace SearchPipeline.Mapping

-- Conditions are trees, and an induction over them goes through the children.
@[elab_as_elim]
theorem Condition.induct {motive : Condition → Prop}
    (step : ∀ condition : Condition, (∀ child ∈ condition.children, motive child) →
      motive condition) : ∀ condition, motive condition
  | .mk type field operator value children => step _ fun child _ => induct step child
termination_by condition => sizeOf condition
decreasing_by
  rename_i hmem
  have hlt := List.sizeOf_lt_of_mem hmem
  simp only [Condition.children] at hlt
  simp only [Condition.mk.sizeOf_spec]
  omega

theorem Condition.text?_eq_some {condition : Condition} {text : String} :
    condition.text? = some text ↔ condition.value = some (.string text) := by
  unfold text?
  split
  · next found hvalue => simp [hvalue]
  · next hother =>
      constructor
      · intro h
        cases h
      · intro hvalue
        exact absurd hvalue (hother text)

-- Both names of a mapping are given.
structure FieldMapping.WellFormed (mapping : FieldMapping) : Prop where
  source : mapping.source ≠ ""
  target : mapping.target ≠ ""

structure ModelField.WellFormed (field : ModelField) : Prop where
  source : field.sourceField ≠ ""
  target : field.targetField ≠ ""

@[simp] theorem need_eq_nil_iff {place : List Step} {fault : Fault} {present : Bool} :
    need place fault present = [] ↔ present = true := by
  cases present <;> simp [need]

-- A list is without violations when each of its items is, wherever it stands.
theorem eachItem_eq_nil_iff {α : Type} {place : List Step} {list : String}
    {check : List Step → α → List Violation} {items : List α} {good : α → Prop}
    (hcheck : ∀ place item, check place item = [] ↔ good item) :
    eachItem list place check items = [] ↔ ∀ item ∈ items, good item := by
  simp only [eachItem, List.flatMap_eq_nil_iff, hcheck, Prod.forall,
    List.mem_zipIdx_iff_getElem?]
  constructor
  · intro h item hmem
    obtain ⟨index, hget⟩ := List.getElem?_of_mem hmem
    exact h item index hget
  · intro h item index hget
    exact h item (List.mem_of_getElem? hget)

theorem FieldMapping.violations_eq_nil_iff (place : List Step) (mapping : FieldMapping) :
    mapping.violations place = [] ↔ mapping.WellFormed := by
  simp only [violations, List.append_eq_nil_iff, need_eq_nil_iff, decide_eq_true_eq]
  exact ⟨fun h => ⟨h.1, h.2⟩, fun h => ⟨h.source, h.target⟩⟩

theorem ModelField.violations_eq_nil_iff (place : List Step) (field : ModelField) :
    field.violations place = [] ↔ field.WellFormed := by
  simp only [violations, List.append_eq_nil_iff, need_eq_nil_iff, decide_eq_true_eq]
  exact ⟨fun h => ⟨h.1, h.2⟩, fun h => ⟨h.source, h.target⟩⟩

variable [Pattern.Engine]

-- A text that is a pattern.
def Compiles (text : String) : Prop := ∃ pattern, Pattern.Engine.compile text = .ok pattern

namespace Condition

-- What a condition of a known type has to hold, apart from what its children hold.
structure Sound (condition : Condition) (type : ConditionType) : Prop where
  known : condition.type? = some type
  operator : condition.operator = "" ∨ ∃ operator, condition.operator? = some operator
  pattern : condition.operator? = some .regex → ∀ text, condition.value = some (.string text) →
    Compiles text
  field : type = .fieldValue ∨ type = .fieldExists → condition.field ≠ ""
  many : type = .combination → 2 ≤ condition.children.length
  connective : type = .combination →
    condition.operator? = some .and ∨ condition.operator? = some .or

-- A condition that is sound, and so are the children that it combines, at any depth.
inductive WellFormed : Condition → Prop where
  | intro {condition : Condition} {type : ConditionType} : condition.Sound type →
      (type = .combination → ∀ child ∈ condition.children, WellFormed child) → WellFormed condition

section Faults

variable {condition : Condition}

theorem patternFlaw?_eq_none_iff : condition.patternFlaw? = none ↔
    (condition.operator? = some .regex → ∀ text, condition.value = some (.string text) →
      Compiles text) := by
  simp only [← text?_eq_some]
  unfold patternFlaw? Compiles
  split_ifs with hregex
  · cases htext : condition.text? with
    | none => simp
    | some text => cases hcompile : Pattern.Engine.compile text <;> simp [hregex, hcompile]
  · simp [hregex]

theorem childFault?_eq_none_iff {children : List Condition} {index : Nat} :
    childFault? index children = none ↔ ∀ child ∈ children, child.fault? = none := by
  induction children generalizing index with
  | nil => simp [childFault?]
  | cons first rest ih =>
      rw [childFault?, List.forall_mem_cons]
      cases hfirst : first.fault? with
      | none => simp [ih]
      | some fault => simp

theorem fault?_eq_none : condition.fault? = none ↔ condition.ownFault? = none ∧
    (condition.type? = some .combination → ∀ child ∈ condition.children, child.fault? = none) := by
  obtain ⟨type, field, operator, value, children⟩ := condition
  rw [fault?, Option.or_eq_none_iff]
  refine and_congr_right fun _ => ?_
  split_ifs with htype
  · simp [htype, childFault?_eq_none_iff, Condition.children]
  · simp [htype]

theorem ownFault?_eq_none_iff {type : ConditionType} (htype : condition.type? = some type) :
    condition.ownFault? = none ↔ condition.Sound type := by
  unfold ownFault?
  rw [htype]
  simp only
  by_cases hunknown : condition.operator ≠ "" ∧ condition.operator?.isNone
  · rw [if_pos hunknown]
    refine iff_of_false (by simp) fun hsound => ?_
    rcases hsound.operator with hempty | ⟨operator, hknown⟩
    · exact hunknown.1 hempty
    · simp [hknown] at hunknown
  rw [if_neg hunknown]
  have hoperator : condition.operator = "" ∨ ∃ operator, condition.operator? = some operator := by
    by_cases hempty : condition.operator = ""
    · exact .inl hempty
    · exact .inr (Option.ne_none_iff_exists'.1 (by simpa [hempty] using hunknown))
  cases hflaw : condition.patternFlaw? with
  | some flaw =>
      refine iff_of_false (by simp) fun hsound => ?_
      rw [patternFlaw?_eq_none_iff.2 hsound.pattern] at hflaw
      cases hflaw
  | none =>
      have hpattern := patternFlaw?_eq_none_iff.1 hflaw
      cases type with
      | fieldValue | fieldExists =>
          by_cases hfield : condition.field = ""
          · exact iff_of_false (by simp [hfield]) fun hsound => hsound.field (by simp) hfield
          · exact iff_of_true (by simp [hfield])
              ⟨htype, hoperator, hpattern, fun _ => hfield, nofun, nofun⟩
      | sourcetype | source =>
          exact iff_of_true rfl ⟨htype, hoperator, hpattern, by simp, nofun, nofun⟩
      | combination =>
          by_cases hmany : condition.children.length < 2
          · exact iff_of_false (by simp [hmany]) fun hsound => Nat.not_le.2 hmany (hsound.many rfl)
          by_cases hconnective : condition.operator? = some .and ∨ condition.operator? = some .or
          · refine iff_of_true ?_ ⟨htype, hoperator, hpattern, by simp, fun _ => Nat.not_lt.1 hmany,
              fun _ => hconnective⟩
            rcases hconnective with hand | hor
            · simp [hmany, hand]
            · simp [hmany, hor]
          · obtain ⟨hand, hor⟩ := not_or.1 hconnective
            exact iff_of_false (by simp [hmany, hand, hor]) fun hsound =>
              hconnective (hsound.connective rfl)

-- A condition has no fault exactly when it is well formed.
theorem fault?_eq_none_iff : condition.fault? = none ↔ condition.WellFormed := by
  induction condition using induct with
  | step condition ih =>
      rw [fault?_eq_none]
      constructor
      · rintro ⟨hown, hchildren⟩
        cases htype : condition.type? with
        | none => simp [ownFault?, htype] at hown
        | some type =>
            refine .intro ((ownFault?_eq_none_iff htype).1 hown) ?_
            rintro rfl child hmem
            exact (ih child hmem).1 (hchildren htype child hmem)
      · rintro ⟨hsound, hchildren⟩
        refine ⟨(ownFault?_eq_none_iff hsound.known).2 hsound, fun htype child hmem => ?_⟩
        cases htype.symm.trans hsound.known
        exact (ih child hmem).2 (hchildren rfl child hmem)

end Faults

end Condition

-- A rule has a name to be known by, and conditions and mappings as they should be, at least one of
-- each.
structure Rule.WellFormed (rule : Rule) : Prop where
  id : rule.id ≠ ""
  someCondition : rule.conditions ≠ []
  someMapping : rule.mappings ≠ []
  mappings : ∀ mapping ∈ rule.mappings, mapping.WellFormed
  conditions : ∀ condition ∈ rule.conditions, condition.WellFormed

structure ModelMapping.WellFormed (mapping : ModelMapping) : Prop where
  source : mapping.sourceModel ≠ ""
  target : mapping.targetModel ≠ ""
  fields : ∀ field ∈ mapping.fields, field.WellFormed
  rules : ∀ rule ∈ mapping.rules, rule.WellFormed

structure Config.WellFormed (config : Config) : Prop where
  version : config.version ≠ ""
  mappings : ∀ mapping ∈ config.mappings, mapping.WellFormed
  rules : ∀ rule ∈ config.rules, rule.WellFormed
  datamodels : ∀ model ∈ config.datamodels, model.WellFormed

theorem Condition.violations_eq_nil_iff (place : List Step) (condition : Condition) :
    condition.violations place = [] ↔ condition.WellFormed := by
  rw [violations, List.map_eq_nil_iff, Option.toList_eq_nil_iff, fault?_eq_none_iff]

theorem Rule.violations_eq_nil_iff (place : List Step) (rule : Rule) :
    rule.violations place = [] ↔ rule.WellFormed := by
  simp only [violations, List.append_eq_nil_iff, need_eq_nil_iff,
    eachItem_eq_nil_iff FieldMapping.violations_eq_nil_iff,
    eachItem_eq_nil_iff Condition.violations_eq_nil_iff, decide_eq_true_eq, Bool.not_eq_true',
    List.isEmpty_eq_false_iff]
  constructor
  · rintro ⟨⟨⟨⟨hid, hcondition⟩, hmapping⟩, hmappings⟩, hconditions⟩
    exact ⟨hid, hcondition, hmapping, hmappings, hconditions⟩
  · intro h
    exact ⟨⟨⟨⟨h.id, h.someCondition⟩, h.someMapping⟩, h.mappings⟩, h.conditions⟩

theorem ModelMapping.violations_eq_nil_iff (place : List Step) (mapping : ModelMapping) :
    mapping.violations place = [] ↔ mapping.WellFormed := by
  simp only [violations, List.append_eq_nil_iff, need_eq_nil_iff,
    eachItem_eq_nil_iff ModelField.violations_eq_nil_iff,
    eachItem_eq_nil_iff Rule.violations_eq_nil_iff, decide_eq_true_eq]
  constructor
  · rintro ⟨⟨⟨hsource, htarget⟩, hfields⟩, hrules⟩
    exact ⟨hsource, htarget, hfields, hrules⟩
  · intro h
    exact ⟨⟨⟨h.source, h.target⟩, h.fields⟩, h.rules⟩

-- A configuration is valid exactly when all of it is well formed.
theorem Config.isValid_iff (config : Config) : config.isValid = true ↔ config.WellFormed := by
  simp only [isValid, List.isEmpty_iff, violations, List.append_eq_nil_iff, need_eq_nil_iff,
    eachItem_eq_nil_iff FieldMapping.violations_eq_nil_iff,
    eachItem_eq_nil_iff Rule.violations_eq_nil_iff,
    eachItem_eq_nil_iff ModelMapping.violations_eq_nil_iff, decide_eq_true_eq]
  constructor
  · rintro ⟨⟨⟨hversion, hmappings⟩, hrules⟩, hdatamodels⟩
    exact ⟨hversion, hmappings, hrules, hdatamodels⟩
  · intro h
    exact ⟨⟨⟨h.version, h.mappings⟩, h.rules⟩, h.datamodels⟩

end SearchPipeline.Mapping
