import SearchPipeline.Json.Value

namespace SearchPipeline.Mapping

-- One new name for one old name.
structure FieldMapping where
  source : String
  target : String
deriving DecidableEq, Repr

-- A test of the context. Its type and its operator are kept as written, so that an unknown one
-- is found by checking the configuration and not by reading it.
inductive Condition where
  | mk (type field operator : String) (value : Option Json) (children : List Condition)
deriving Inhabited

namespace Condition

def type : Condition → String
  | mk type _ _ _ _ => type

def field : Condition → String
  | mk _ field _ _ _ => field

def operator : Condition → String
  | mk _ _ operator _ _ => operator

def value : Condition → Option Json
  | mk _ _ _ value _ => value

def children : Condition → List Condition
  | mk _ _ _ _ children => children

end Condition

structure Rule where
  id : String
  name : String
  description : String
  conditions : List Condition
  mappings : List FieldMapping
  -- Carried along; evaluation does not look at it.
  priority : Int
  enabled : Bool

structure ModelField where
  sourceField : String
  targetField : String
  sourcePath : String
  targetPath : String
deriving DecidableEq, Repr

-- A mapping between two data models.
structure ModelMapping where
  sourceModel : String
  targetModel : String
  fields : List ModelField
  rules : List Rule

structure Config where
  version : String
  name : String := ""
  description : String := ""
  mappings : List FieldMapping := []
  rules : List Rule := []
  datamodels : List ModelMapping := []
  metadata : Option (List (String × Json)) := none

-- The types of conditions.
inductive ConditionType where
  | fieldValue
  | fieldExists
  | sourcetype
  | source
  | combination
deriving DecidableEq, Repr

namespace ConditionType

def name : ConditionType → String
  | fieldValue => "field_value"
  | fieldExists => "field_exists"
  | sourcetype => "sourcetype"
  | source => "source"
  | combination => "combination"

def all : List ConditionType := [fieldValue, fieldExists, sourcetype, source, combination]

def ofName? (name : String) : Option ConditionType := all.find? (·.name == name)

end ConditionType

inductive Operator where
  | equals
  | contains
  | regex
  | exists
  | notExists
  | and
  | or
deriving DecidableEq, Repr

namespace Operator

def name : Operator → String
  | .equals => "equals"
  | .contains => "contains"
  | .regex => "regex"
  | .exists => "exists"
  | .notExists => "not_exists"
  | .and => "and"
  | .or => "or"

def all : List Operator := [.equals, .contains, .regex, .exists, .notExists, .and, .or]

def ofName? (name : String) : Option Operator := all.find? (·.name == name)

end Operator

namespace Condition

def type? (condition : Condition) : Option ConditionType := ConditionType.ofName? condition.type

def operator? (condition : Condition) : Option Operator := Operator.ofName? condition.operator

-- The value, when it is a text.
def text? (condition : Condition) : Option String :=
  match condition.value with
  | some (.string text) => some text
  | _ => none

def fieldValue (field : String) (operator : Operator) (value : Json) : Condition :=
  .mk ConditionType.fieldValue.name field operator.name (some value) []

def fieldExists (field : String) (present : Bool) : Condition :=
  let operator : Operator := if present then .exists else .notExists
  .mk ConditionType.fieldExists.name field operator.name none []

def sourcetype (operator : Operator) (value : String) : Condition :=
  .mk ConditionType.sourcetype.name "" operator.name (some (.string value)) []

def source (operator : Operator) (value : String) : Condition :=
  .mk ConditionType.source.name "" operator.name (some (.string value)) []

def combination (operator : Operator) (children : List Condition) : Condition :=
  .mk ConditionType.combination.name "" operator.name none children

end Condition

end SearchPipeline.Mapping
