import SearchPipeline.Text.Position
import SearchPipeline.Token.Scan

namespace SearchPipeline

-- What a rule was looking for when it failed.
inductive Wanted where
  | kind (kind : Kind)
  | operation
  | command
  | value
  | comparison
deriving DecidableEq, Repr

def Wanted.describe : Wanted → String
  | .kind token => token.describe
  | .operation => "operation"
  | .command => "command"
  | .value => "value"
  | .comparison => "comparison operator"

-- Operations, expressions and subqueries may stand inside one another this deep.
def maxNesting : Nat := 128

inductive Complaint where
  -- The token found, and what would have fitted there.
  | unexpected (found : String) (wanted : List Wanted)
  | tooDeep
deriving DecidableEq, Repr

def Complaint.message : Complaint → String
  | unexpected found [] => "no viable alternative at input '" ++ found ++ "'"
  | unexpected found [wanted] => "mismatched input '" ++ found ++ "' expecting " ++ wanted.describe
  | unexpected found wanted =>
      "mismatched input '" ++ found ++ "' expecting \x7b" ++
        ", ".intercalate (wanted.map Wanted.describe) ++ "\x7d"
  | tooDeep => "nesting too deep (more than " ++ toString maxNesting ++ " levels)"

inductive ParseError where
  | lexical (position : Position) (flaw : Scan.Flaw)
  | grammatical (position : Position) (complaint : Complaint)
  | emptyQuery
deriving DecidableEq, Repr

namespace ParseError

def position? : ParseError → Option Position
  | lexical position _ | grammatical position _ => some position
  | emptyQuery => none

def message : ParseError → String
  | lexical _ flaw => flaw.message
  | grammatical _ complaint => complaint.message
  | emptyQuery => "query is empty"

-- The message behind its position, if it has one.
def describe (error : ParseError) : String :=
  match error.position? with
  | some position =>
      "line " ++ toString position.line ++ ":" ++ toString position.column ++ " " ++ error.message
  | none => error.message

def describeAll (errors : List ParseError) : String := "; ".intercalate (errors.map describe)

def ofMistake (source : String) (mistake : Scan.Mistake) : ParseError :=
  .lexical (Position.locate source mistake.start) mistake.flaw

end ParseError

-- The tokens of a query, with the flaws of its characters as errors.
def Scan.tokensOrErrors (source : String) : Except (List ParseError) (List Token) :=
  (Scan.tokens source).mapError (·.map (ParseError.ofMistake source))

end SearchPipeline
