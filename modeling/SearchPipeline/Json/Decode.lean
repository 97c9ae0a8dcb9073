import SearchPipeline.Json.Document

namespace SearchPipeline.Json

-- The number of containers that may stand inside one another.
def nestingLimit : Nat := 127

namespace Document

mutual

-- The value of a document, with numbers in range, strings that are texts, and the members of
-- objects sorted by key.
def toJson? (room : Nat) : Document → Option Json
  | .null => some .null
  | .bool value => some (.bool value)
  | .number numeral => numeral.value?
  | .string text => text.map .string
  | .list items =>
    match room with
    | 0 => none
    | room + 1 => (toJsons? room items).map .list
  | .object members =>
    match room with
    | 0 => none
    | room + 1 => (toMembers? room members).map fun found => .object (sortMembers found)

def toJsons? (room : Nat) : List Document → Option (List Json)
  | [] => some []
  | item :: rest => do
    let value ← toJson? room item
    let values ← toJsons? room rest
    return value :: values

def toMembers? (room : Nat) : List (Option String × Document) → Option (List (String × Json))
  | [] => some []
  | (key, value) :: rest => do
    let key ← key
    let value ← toJson? room value
    let members ← toMembers? room rest
    return (key, value) :: members

end

end Document

-- The value that a text spells, with the usual limit on nesting.
def parse? (text : String) : Option Json := do
  let document ← Document.parse? text
  document.toJson? nestingLimit

end SearchPipeline.Json
