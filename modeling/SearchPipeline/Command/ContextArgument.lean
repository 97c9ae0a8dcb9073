import SearchPipeline.Mapping.Context
import SearchPipeline.Text.Split

namespace SearchPipeline.ContextArgument

open Text

-- The key and the values of an argument. Blanks around them do not count, nor do empty values;
-- an argument without `=`, or with nothing before it, is none.
def split? (argument : String) : Option (String × List String) := do
  let (key, value) ← cut? ['='] argument.toList
  let key := trim key
  if key.isEmpty then none
  else
    let values := ((splitOn ',' value).map trim).filter (!·.isEmpty)
    some (String.ofList key, values.map String.ofList)

-- Values for a key that is there are added to those it has.
def add (context : Context) (key : String) (values : List String) : Context :=
  let held := (context[key]?.map ContextValue.values).getD []
  context.insert key (.ofValues (held ++ values))

-- The context of all arguments, or the first argument that is none.
def parse (arguments : List String) : Except String Context :=
  arguments.foldlM (fun context argument =>
    match split? argument with
    | some (key, values) => .ok (add context key values)
    | none => .error argument) ∅

end SearchPipeline.ContextArgument
