import SearchPipeline.Mapping.Config
import SearchPipeline.Pattern.Engine

namespace SearchPipeline.Mapping

-- What is wrong with a condition.
inductive ConditionFault where
  | unknownType (name : String)
  | unknownOperator (name : String)
  | badPattern (flaw : String)
  | fieldMissing (type : ConditionType)
  | tooFewChildren
  | noConnective
  | child (index : Nat) (fault : ConditionFault)
deriving DecidableEq, Repr

def ConditionFault.message : ConditionFault → String
  | unknownType name => "invalid condition type: " ++ name
  | unknownOperator name => "invalid operator: " ++ name
  | badPattern flaw => "invalid regex pattern: " ++ flaw
  | fieldMissing type => "field is required for type " ++ type.name
  | tooFewChildren => "combination conditions require at least 2 children"
  | noConnective => "combination conditions require 'and' or 'or' operator"
  | child index fault => "child[" ++ toString index ++ "]: " ++ fault.message

-- What is wrong at a place of a configuration.
inductive Fault where
  | versionMissing
  | sourceMissing
  | targetMissing
  | idMissing
  | noConditions
  | noMappings
  | condition (fault : ConditionFault)
  | sourceModelMissing
  | targetModelMissing
  | sourceFieldMissing
  | targetFieldMissing
deriving DecidableEq, Repr

def Fault.message : Fault → String
  | versionMissing => "version is required"
  | sourceMissing => "source field is required"
  | targetMissing => "target field is required"
  | idMissing => "id is required"
  | noConditions => "at least one condition is required"
  | noMappings => "at least one mapping is required"
  | condition fault => fault.message
  | sourceModelMissing => "source_datamodel is required"
  | targetModelMissing => "target_datamodel is required"
  | sourceFieldMissing => "source_field is required"
  | targetFieldMissing => "target_field is required"

-- A step of a place: a list and an index into it.
structure Step where
  list : String
  index : Nat
deriving DecidableEq, Repr

structure Violation where
  place : List Step
  fault : Fault
deriving DecidableEq, Repr

namespace Violation

def placeText (place : List Step) : String :=
  ".".intercalate (place.map fun step => step.list ++ "[" ++ toString step.index ++ "]")

def message (violation : Violation) : String :=
  if violation.place.isEmpty then violation.fault.message
  else placeText violation.place ++ ": " ++ violation.fault.message

end Violation

-- Violations inside the items of a list, each at its index.
def eachItem {α : Type} (list : String) (place : List Step)
    (check : List Step → α → List Violation) (items : List α) : List Violation :=
  items.zipIdx.flatMap fun (item, index) => check (place ++ [⟨list, index⟩]) item

-- A violation if something is missing.
def need (place : List Step) (fault : Fault) (present : Bool) : List Violation :=
  if present then [] else [⟨place, fault⟩]

def FieldMapping.violations (place : List Step) (mapping : FieldMapping) : List Violation :=
  need place .sourceMissing (mapping.source ≠ "") ++ need place .targetMissing (mapping.target ≠ "")

def ModelField.violations (place : List Step) (field : ModelField) : List Violation :=
  need place .sourceFieldMissing (field.sourceField ≠ "") ++
    need place .targetFieldMissing (field.targetField ≠ "")

section Patterns

variable [Pattern.Engine]

namespace Condition

-- A text under the operator `regex` has to be a pattern.
def patternFlaw? (condition : Condition) : Option String :=
  if condition.operator? = some .regex then
    match condition.text?.map Pattern.Engine.compile with
    | some (.error flaw) => some flaw
    | _ => none
  else none

-- The faults of a condition apart from those of its children: first its type, then its
-- operator, its pattern, and what its type asks for.
def ownFault? (condition : Condition) : Option ConditionFault :=
  match condition.type? with
  | none => some (.unknownType condition.type)
  | some type =>
    if condition.operator ≠ "" ∧ condition.operator?.isNone then
      some (.unknownOperator condition.operator)
    else
      match condition.patternFlaw? with
      | some flaw => some (.badPattern flaw)
      | none =>
        match type with
        | .fieldValue | .fieldExists =>
            if condition.field = "" then some (.fieldMissing type) else none
        | .combination =>
            if condition.children.length < 2 then some .tooFewChildren
            else if condition.operator? ≠ some .and ∧ condition.operator? ≠ some .or then
              some .noConnective
            else none
        | .sourcetype | .source => none

mutual

-- The first fault. Only the children of a combination matter.
def fault? : Condition → Option ConditionFault
  | .mk type field operator value children =>
      let condition := Condition.mk type field operator value children
      (ownFault? condition).or
        (if condition.type? = some .combination then childFault? 0 children else none)

def childFault? (index : Nat) : List Condition → Option ConditionFault
  | [] => none
  | first :: rest =>
    match fault? first with
    | some fault => some (.child index fault)
    | none => childFault? (index + 1) rest

end

def violations (place : List Step) (condition : Condition) : List Violation :=
  condition.fault?.toList.map fun fault => ⟨place, .condition fault⟩

end Condition

def Rule.violations (place : List Step) (rule : Rule) : List Violation :=
  need place .idMissing (rule.id ≠ "") ++
    need place .noConditions (!rule.conditions.isEmpty) ++
    need place .noMappings (!rule.mappings.isEmpty) ++
    eachItem "mapping" place FieldMapping.violations rule.mappings ++
    eachItem "condition" place Condition.violations rule.conditions

def ModelMapping.violations (place : List Step) (mapping : ModelMapping) : List Violation :=
  need place .sourceModelMissing (mapping.sourceModel ≠ "") ++
    need place .targetModelMissing (mapping.targetModel ≠ "") ++
    eachItem "field_mapping" place ModelField.violations mapping.fields ++
    eachItem "rule" place Rule.violations mapping.rules

namespace Config

def violations (config : Config) : List Violation :=
  need [] .versionMissing (config.version ≠ "") ++
    eachItem "mapping" [] FieldMapping.violations config.mappings ++
    eachItem "rule" [] Rule.violations config.rules ++
    eachItem "datamodel" [] ModelMapping.violations config.datamodels

def isValid (config : Config) : Bool := config.violations.isEmpty

end Config

end Patterns

-- The report on a configuration. The list of violations is left out when it is empty.
def validationJson (violations : List Violation) : Json :=
  .object ([("valid", .bool violations.isEmpty)] ++
    if violations.isEmpty then []
    else [("errors", .ofStrings (violations.map Violation.message))])

end SearchPipeline.Mapping
