import SearchPipeline.Text.Position
import SearchPipeline.Token.Basic
import SearchPipeline.Tree.Operation

namespace SearchPipeline

-- The keyword at the head of a stage.
structure Command where
  name : String
  kind : Kind
  span : Span
deriving DecidableEq, Repr

mutual

-- One stage. Only an opening stage may lack its command, which makes it a search, and only an
-- opening stage may follow a `|` of its own.
inductive Stage where
  | mk (piped : Bool) (command : Option Command) (operations : List Operation)
      (subquery : Option Subquery) (span : Span)

-- A pipeline in brackets.
inductive Subquery where
  | mk (opening : Stage) (later : List Stage) (span : Span)

end

namespace Stage

def piped : Stage → Bool
  | mk piped _ _ _ _ => piped

def command : Stage → Option Command
  | mk _ command _ _ _ => command

def operations : Stage → List Operation
  | mk _ _ operations _ _ => operations

def subquery : Stage → Option Subquery
  | mk _ _ _ subquery _ => subquery

def span : Stage → Span
  | mk _ _ _ _ span => span

def commandName? (stage : Stage) : Option String := stage.command.map (·.name)

end Stage

namespace Subquery

def opening : Subquery → Stage
  | mk opening _ _ => opening

def later : Subquery → List Stage
  | mk _ later _ => later

def span : Subquery → Span
  | mk _ _ span => span

end Subquery

-- A whole pipeline.
structure Pipeline where
  opening : Stage
  later : List Stage
  span : Span

def Pipeline.stages (pipeline : Pipeline) : List Stage := pipeline.opening :: pipeline.later

-- A parsed query: its text, its tokens and the pipeline they form.
structure Query where
  source : String
  tokens : List Token
  pipeline : Pipeline

namespace Query

def tokensIn (query : Query) (span : Span) : List Token :=
  (query.tokens.drop span.start).take (span.stop - span.start)

-- The source text from the first token of a span to its last.
def text (query : Query) (span : Span) : String :=
  let tokens := query.tokensIn span
  match tokens.head?, tokens.getLast? with
  | some first, some last =>
      String.ofList (Text.slice query.source.toList first.start last.stop)
  | _, _ => ""

-- The text of a span without blanks and comments.
def compactText (query : Query) (span : Span) : String :=
  String.join (((query.tokensIn span).filter (!·.isTrivia)).map (·.text))

end Query

end SearchPipeline
