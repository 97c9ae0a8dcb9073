import SearchPipeline.Inventory.FieldName

namespace SearchPipeline.Reference

open Text

-- Without one pair of double quotes around it.
def unquote (text : List Char) : List Char :=
  let inner := trim text
  if inner.length ≥ 2 ∧ inner.head? = some '"' ∧ inner.getLast? = some '"' then
    (inner.drop 1).dropLast
  else inner

-- What stands behind a key, wherever the key first occurs and in any case.
def behindKey? (key text : List Char) : Option (List Char) :=
  (indexOf? key (lower text)).map fun index => text.drop (index + key.length)

def endsValue (c : Char) : Bool := c == ' ' || c == '|' || c == '\t' || c == '\n'

-- The first word of a text, or the text in double quotes that it starts with.
def firstValue? (text : List Char) : Option (List Char) :=
  let value := trim text
  let word := value.takeWhile (!endsValue ·)
  let unquoted := if word.isEmpty then none else some word
  match value with
  | '"' :: quoted =>
    match indexOf? ['"'] quoted with
    | some index => some (quoted.take index)
    | none => unquoted
  | _ => unquoted

-- The value behind `datamodel=`.
def modelValue? (text : List Char) : Option (List Char) :=
  (behindKey? "datamodel=".toList text).bind firstValue?

-- `Model.Object`, split at the first point; the object may be missing.
def splitModel (reference : List Char) : List Char × Option (List Char) :=
  match cut? ['.'] reference with
  | some (model, object) => (model, some object)
  | none => (reference, none)

-- The model and the object behind `datamodel:`, as `Model.Object` or `"Model"."Object"`. Both
-- have to be there.
def dataset? (text : List Char) : Option (List Char × List Char) := do
  let reference ← behindKey? "datamodel:".toList text
  let (model, object) ← (cut? ['"', '.', '"'] reference).or (cut? ['.'] reference)
  let model := strip '"' (unquote model)
  let object := strip '"' (unquote object)
  if model.isEmpty ∨ object.isEmpty then none else some (model, object)

-- The text between the first opening and the last closing parenthesis, if it reads like a field.
def callArgument? (text : List Char) : Option (List Char) := do
  let (_, behind) ← cut? ['('] text
  let (_, inner) ← cut? [')'] behind.reverse
  let content := inner.reverse
  if FieldName.isOfModel content || FieldName.isLikely content then some content else none

end SearchPipeline.Reference
