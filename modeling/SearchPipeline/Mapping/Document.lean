import SearchPipeline.Json.Decode
import SearchPipeline.Json.Write
import SearchPipeline.Mapping.Config

namespace SearchPipeline.Mapping

open Json

-- The fields of a record that a document gives, by name.
abbrev Fields := List (String × Json.Document)

namespace Fields

-- The members with a known name, none of them twice.
def ofMembers? (names : List String) : List (Option String × Json.Document) → Option Fields
  | [] => some []
  | (none, _) :: _ => none
  | (some key, value) :: rest => do
      let found ← ofMembers? names rest
      if key ∈ names then
        if (found.lookup key).isSome then none else some ((key, value) :: found)
      else some found

-- A record is an object, or a list of its fields in order that may end early.
def ofDocument? (names : List String) : Json.Document → Option Fields
  | .object members => ofMembers? names members
  | .list items => if items.length ≤ names.length then some (names.zip items) else none
  | _ => none

-- A field that is read in its own way if it is there.
def read? {α : Type} (fields : Fields) (key : String) (default : α)
    (read : Json.Document → Option α) : Option α :=
  match fields.lookup key with
  | some document => read document
  | none => some default

end Fields

def string? : Json.Document → Option String
  | .string text => text
  | _ => none

def bool? : Json.Document → Option Bool
  | .bool value => some value
  | _ => none

-- A whole number of 64 bits, one of them for the sign.
def integer? : Json.Document → Option Int
  | .number numeral =>
      numeral.wholeValue?.filter fun value =>
        -(Json.Numeral.signLimit : Int) ≤ value ∧ value < (Json.Numeral.signLimit : Int)
  | _ => none

-- Any value, where null stands for none.
def value? (room : Nat) : Json.Document → Option (Option Json)
  | .null => some none
  | document => (document.toJson? room).map some

def metadata? (room : Nat) (document : Json.Document) :
    Option (Option (List (String × Json))) := do
  match ← value? room document with
  | none => return none
  | some (.object members) => return some members
  | some _ => none

-- A list takes one container, and leaves the rest of the room to its items.
def items? {α : Type} (item : Nat → Json.Document → Option α) (room : Nat) :
    Json.Document → Option (List α)
  | .list items =>
    match room with
    | 0 => none
    | room + 1 => items.mapM (item room)
  | _ => none

-- A record takes one container too.
def record? {α : Type} (names : List String) (read : Nat → Fields → Option α) :
    Nat → Json.Document → Option α
  | 0, _ => none
  | room + 1, document => (Fields.ofDocument? names document).bind (read room)

namespace FieldMapping

def read? : Nat → Json.Document → Option FieldMapping :=
  record? ["source", "target"] fun _ fields => do
    let source ← fields.read? "source" "" string?
    let target ← fields.read? "target" "" string?
    return ⟨source, target⟩

def toJson (mapping : FieldMapping) : Json :=
  .object [("source", .string mapping.source), ("target", .string mapping.target)]

end FieldMapping

-- Members that are written only when they hold something.
def textMember (key text : String) : List (String × Json) :=
  if text = "" then [] else [(key, .string text)]

def listMember (key : String) (items : List Json) : List (String × Json) :=
  if items.isEmpty then [] else [(key, .list items)]

namespace Condition

def names : List String := ["type", "field", "operator", "value", "children"]

-- A condition out of its fields, with as much room for its value, and a reader for its children.
def ofDocument? (room : Nat) (children? : Json.Document → Option (List Condition))
    (document : Json.Document) : Option Condition := do
  let fields ← Fields.ofDocument? names document
  let type ← fields.read? "type" "" string?
  let field ← fields.read? "field" "" string?
  let operator ← fields.read? "operator" "" string?
  let value ← fields.read? "value" none (value? room)
  let children ← fields.read? "children" [] children?
  return .mk type field operator value children

-- A condition and the list of its children take a container each.
def read? : Nat → Json.Document → Option Condition
  | 0 => fun _ => none
  | 1 => ofDocument? 0 fun _ => none
  | room + 2 => ofDocument? (room + 1) fun
    | .list items => items.mapM (read? room)
    | _ => none

mutual

def toJson : Condition → Json
  | .mk type field operator value children =>
      .object ([("type", .string type)] ++ textMember "field" field ++
        textMember "operator" operator ++ value.toList.map (fun value => ("value", value)) ++
        listMember "children" (toJsons children))

def toJsons : List Condition → List Json
  | [] => []
  | first :: rest => toJson first :: toJsons rest

end

end Condition

namespace Rule

def names : List String :=
  ["id", "name", "description", "conditions", "mappings", "priority", "enabled"]

def read? : Nat → Json.Document → Option Rule :=
  record? names fun room fields => do
    let id ← fields.read? "id" "" string?
    let name ← fields.read? "name" "" string?
    let description ← fields.read? "description" "" string?
    let conditions ← fields.read? "conditions" [] (items? Condition.read? room)
    let mappings ← fields.read? "mappings" [] (items? FieldMapping.read? room)
    let priority ← fields.read? "priority" 0 integer?
    let enabled ← fields.read? "enabled" false bool?
    return { id, name, description, conditions, mappings, priority, enabled }

def toJson (rule : Rule) : Json :=
  .object ([("id", .string rule.id)] ++ textMember "name" rule.name ++
    textMember "description" rule.description ++
    [("conditions", .list (rule.conditions.map Condition.toJson)),
     ("mappings", .list (rule.mappings.map FieldMapping.toJson)),
     ("priority", .int rule.priority), ("enabled", .bool rule.enabled)])

end Rule

namespace ModelField

def names : List String := ["source_field", "target_field", "source_path", "target_path"]

def read? : Nat → Json.Document → Option ModelField :=
  record? names fun _ fields => do
    let sourceField ← fields.read? "source_field" "" string?
    let targetField ← fields.read? "target_field" "" string?
    let sourcePath ← fields.read? "source_path" "" string?
    let targetPath ← fields.read? "target_path" "" string?
    return { sourceField, targetField, sourcePath, targetPath }

def toJson (field : ModelField) : Json :=
  .object ([("source_field", .string field.sourceField),
      ("target_field", .string field.targetField)] ++
    textMember "source_path" field.sourcePath ++ textMember "target_path" field.targetPath)

end ModelField

namespace ModelMapping

def names : List String :=
  ["source_datamodel", "target_datamodel", "field_mappings", "conditional_mappings"]

def read? : Nat → Json.Document → Option ModelMapping :=
  record? names fun room fields => do
    let sourceModel ← fields.read? "source_datamodel" "" string?
    let targetModel ← fields.read? "target_datamodel" "" string?
    let modelFields ← fields.read? "field_mappings" [] (items? ModelField.read? room)
    let rules ← fields.read? "conditional_mappings" [] (items? Rule.read? room)
    return ⟨sourceModel, targetModel, modelFields, rules⟩

def toJson (mapping : ModelMapping) : Json :=
  .object ([("source_datamodel", .string mapping.sourceModel),
      ("target_datamodel", .string mapping.targetModel),
      ("field_mappings", .list (mapping.fields.map ModelField.toJson))] ++
    listMember "conditional_mappings" (mapping.rules.map Rule.toJson))

end ModelMapping

namespace Config

def names : List String :=
  ["version", "name", "description", "mappings", "rules", "datamodels", "metadata"]

def read? : Nat → Json.Document → Option Config :=
  record? names fun room fields => do
    let version ← fields.read? "version" "" string?
    let name ← fields.read? "name" "" string?
    let description ← fields.read? "description" "" string?
    let mappings ← fields.read? "mappings" [] (items? FieldMapping.read? room)
    let rules ← fields.read? "rules" [] (items? Rule.read? room)
    let datamodels ← fields.read? "datamodels" [] (items? ModelMapping.read? room)
    let metadata ← fields.read? "metadata" none (metadata? room)
    return { version, name, description, mappings, rules, datamodels, metadata }

-- The configuration that a text spells, checked or not.
def decode? (text : String) : Option Config :=
  (Json.Document.parse? text).bind (read? Json.nestingLimit)

def toJson (config : Config) : Json :=
  .object ([("version", .string config.version)] ++ textMember "name" config.name ++
    textMember "description" config.description ++
    [("mappings", .list (config.mappings.map FieldMapping.toJson))] ++
    listMember "rules" (config.rules.map Rule.toJson) ++
    listMember "datamodels" (config.datamodels.map ModelMapping.toJson) ++
    config.metadata.toList.map (fun members => ("metadata", .object members)))

def encode (config : Config) : String := config.toJson.pretty

-- Two configurations are equal when every part of them is. Numbers compare as numbers.
def equal (a b : Config) : Bool := a.toJson == b.toJson

end Config

-- The mappings that a text lists.
def decodeMappings? (text : String) : Option (List FieldMapping) :=
  (Json.Document.parse? text).bind (items? FieldMapping.read? Json.nestingLimit)

end SearchPipeline.Mapping
