import SearchPipeline.Mapping.Config
import SearchPipeline.Mapping.Context
import SearchPipeline.Pattern.Engine
import SearchPipeline.Text.Run

namespace SearchPipeline.Mapping

-- Whether a text stands somewhere inside another.
def isInside (part text : String) : Bool := (Text.indexOf? part.toList text.toList).isSome

def Condition.existsHolds (condition : Condition) (context : Context) : Bool :=
  match condition.operator? with
  | some .exists => context.contains condition.field
  | some .notExists => !context.contains condition.field
  | _ => false

variable [Pattern.Engine]

namespace Condition

-- Whether some value matches the pattern of a condition. What is no pattern matches nothing.
def matchesPattern (condition : Condition) (value : ContextValue) : Bool :=
  match condition.text?.map Pattern.Engine.compile with
  | some (.ok pattern) => value.any (Pattern.Engine.occursIn pattern)
  | _ => false

-- A field of the context. It equals a value as a whole, and a part is looked for only in a
-- value that stands alone.
def fieldHolds (condition : Condition) (context : Context) : Bool :=
  match context[condition.field]? with
  | none => false
  | some value =>
    match condition.operator? with
    | some .equals => condition.value.bind ContextValue.ofJson? == some value
    | some .contains =>
      match value.asSingle?, condition.text? with
      | some text, some part => isInside part text
      | _, _ => false
    | some .regex => condition.matchesPattern value
    | _ => false

-- An attribute of the query. It is enough that one of its values fits.
def attributeHolds (condition : Condition) (key : String) (context : Context) : Bool :=
  match context[key]?, condition.text? with
  | some value, some expected =>
    match condition.operator? with
    | some .equals => value.any (· == expected)
    | some .contains => value.any (isInside expected)
    | some .regex => condition.matchesPattern value
    | _ => false
  | _, _ => false

mutual

def holds (context : Context) : Condition → Bool
  | .mk type field operator value children =>
      let condition := Condition.mk type field operator value children
      match condition.type? with
      | none => false
      | some .fieldExists => condition.existsHolds context
      | some .fieldValue => condition.fieldHolds context
      | some .sourcetype => condition.attributeHolds ConditionType.sourcetype.name context
      | some .source => condition.attributeHolds ConditionType.source.name context
      | some .combination =>
        match condition.operator? with
        | some .and => allHold context children
        | some .or => anyHolds context children
        | _ => false

def allHold (context : Context) : List Condition → Bool
  | [] => true
  | first :: rest => holds context first && allHold context rest

def anyHolds (context : Context) : List Condition → Bool
  | [] => false
  | first :: rest => holds context first || anyHolds context rest

end

end Condition

def Rule.applies (context : Context) (rule : Rule) : Bool :=
  rule.enabled && rule.conditions.all (Condition.holds context)

-- The mappings that always apply, and those of the rules that do, in the order written.
def Config.evaluate (config : Config) (context : Context) : List FieldMapping :=
  config.mappings ++ (config.rules.filter (Rule.applies context)).flatMap (·.mappings)

end SearchPipeline.Mapping
