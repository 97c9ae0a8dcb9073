import SearchPipeline.Json.Value

namespace SearchPipeline

-- Each list is free of repetitions, in the order in which its texts are first seen.
structure Inventory where
  datamodels : List String := []
  -- `Model.Dataset`
  datasets : List String := []
  lookups : List String := []
  macros : List String := []
  sources : List String := []
  sourcetypes : List String := []
  inputFields : List String := []
deriving DecidableEq, Repr

inductive Category where
  | datamodel
  | dataset
  | lookup
  | source
  | sourcetype
  | inputField
deriving DecidableEq, Repr

-- One thing seen in a query.
structure Finding where
  category : Category
  text : String
deriving DecidableEq, Repr

namespace Inventory

-- Appends a text that is neither empty nor there already.
def addNew (found : List String) (text : String) : List String :=
  if text = "" ∨ text ∈ found then found else found ++ [text]

def distinct (texts : List String) : List String := texts.foldl addNew []

-- The texts seen in one category, each where it first occurs.
def collect (findings : List Finding) (category : Category) : List String :=
  distinct ((findings.filter (·.category = category)).map (·.text))

def ofFindings (findings : List Finding) : Inventory :=
  { datamodels := collect findings .datamodel
    datasets := collect findings .dataset
    lookups := collect findings .lookup
    sources := collect findings .source
    sourcetypes := collect findings .sourcetype
    inputFields := collect findings .inputField }

def isEmpty (inventory : Inventory) : Bool :=
  inventory.datamodels.isEmpty && inventory.datasets.isEmpty && inventory.lookups.isEmpty &&
    inventory.macros.isEmpty && inventory.sources.isEmpty && inventory.sourcetypes.isEmpty &&
    inventory.inputFields.isEmpty

def toJson (inventory : Inventory) : Json :=
  .object [("datamodels", .ofStrings inventory.datamodels),
    ("datasets", .ofStrings inventory.datasets), ("lookups", .ofStrings inventory.lookups),
    ("macros", .ofStrings inventory.macros), ("sources", .ofStrings inventory.sources),
    ("sourcetypes", .ofStrings inventory.sourcetypes),
    ("input_fields", .ofStrings inventory.inputFields)]

end Inventory

end SearchPipeline
