import SearchPipeline.Text.Split

namespace SearchPipeline.FieldName

open Text

-- Keywords that may be glued to the name behind them, as in `byWeb.src_ip`.
def gluedKeywords : List (List Char) :=
  ["by".toList, "from".toList, "where".toList, "select".toList, "as".toList, "into".toList,
   "with".toList]

-- Endings of file names.
def fileEndings : List (List Char) := [".csv".toList, ".txt".toList, ".log".toList]

-- What follows the keyword has a point in it or starts with a capital.
def isGlued (text keyword : List Char) : Bool :=
  keyword.isPrefixOf (lower text) &&
    ((text.drop keyword.length).contains '.' || headIs Char.isUpper (text.drop keyword.length))

def isFieldChar (c : Char) : Bool := c.isAlphanum || c == '_' || c == '.'

-- No number, no address, no file, and no keyword glued to a name.
def isLikely (text : List Char) : Bool :=
  let hasDigit := text.any Char.isDigit
  let hasLetter := text.any fun c => c.isAlpha || c == '_'
  !text.isEmpty && !gluedKeywords.any (isGlued text) && !(hasDigit && !hasLetter) &&
    !(headIs (· == '.') text && hasDigit) && !fileEndings.any (·.isSuffixOf (lower text)) &&
    text.all isFieldChar

-- `Object.field` or `Model.Object.field`, each part like the name of a field.
def isOfModel (text : List Char) : Bool :=
  let parts := splitOn '.' text
  (parts.length == 2 || parts.length == 3) && parts.all isLikely

end SearchPipeline.FieldName
