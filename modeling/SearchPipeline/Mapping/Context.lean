import SearchPipeline.Inventory.Basic
import SearchPipeline.Json.Value
import Std.Data.TreeMap

namespace SearchPipeline

inductive ContextValue where
  | single (text : String)
  | multiple (texts : List String)
deriving DecidableEq, Repr

namespace ContextValue

-- Exactly one value stands alone.
def ofValues : List String → ContextValue
  | [text] => single text
  | texts => multiple texts

def asSingle? : ContextValue → Option String
  | single text => some text
  | multiple _ => none

-- Every text held, in order.
def values : ContextValue → List String
  | single text => [text]
  | multiple texts => texts

def any (value : ContextValue) (test : String → Bool) : Bool := value.values.any test

def toJson : ContextValue → Json
  | single text => .string text
  | multiple texts => .ofStrings texts

def display : ContextValue → String
  | single text => text
  | multiple texts => "[" ++ ", ".intercalate texts ++ "]"

def textOf? : Json → Option String
  | .string text => some text
  | _ => none

-- A text, or a list of texts.
def ofJson? : Json → Option ContextValue
  | .string text => some (single text)
  | .list items => (items.mapM textOf?).map multiple
  | _ => none

end ContextValue

-- Values by attribute.
abbrev Context := Std.TreeMap String ContextValue

namespace Context

-- An object whose members are values.
def ofJson? : Json → Option Context
  | .object members =>
      members.foldlM (fun context (key, value) =>
        (ContextValue.ofJson? value).map (context.insert key)) (∅ : Context)
  | _ => none

-- The attributes that an inventory shows. An attribute without values is left out.
def ofInventory (inventory : Inventory) : Context :=
  [("sourcetype", inventory.sourcetypes), ("source", inventory.sources),
   ("datamodel", inventory.datamodels)].foldl
    (fun context (key, values) =>
      if values.isEmpty then context else context.insert key (.ofValues values)) ∅

end Context

end SearchPipeline
