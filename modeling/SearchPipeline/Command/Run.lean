import SearchPipeline.Command.Arguments
import SearchPipeline.Command.Execute
import SearchPipeline.Pattern.Parse

namespace SearchPipeline.Command

open Mapping

structure Outcome where
  code : Nat := 0
  stdout : String := ""
  stderr : String := ""
deriving DecidableEq, Repr

namespace Outcome

def success (text : String) : Outcome := { stdout := text ++ "\n" }

def failure (error : Failure) : Outcome := { code := 1, stderr := error.message ++ "\n" }

def usage : Outcome :=
  { code := 2
    stderr :=
      "usage: map [QUERY] [-m FILE] [-c FILE] [--context KEY=VALUE]...\n" ++
      "       discover [QUERY] [-p]\n" ++
      "       validate [QUERY]\n" ++
      "       parse [QUERY] [-p]\n" ++
      "       check-config FILE\n" }

def ofResult {α : Type} (result : Except Failure α) (report : α → Outcome) : Outcome :=
  match result with
  | .ok value => report value
  | .error error => failure error

end Outcome

-- The query given, or else standard input without the line ends behind it.
def readQuery (query : Option String) (stdin : String) : Except Failure String :=
  match query with
  | some query => .ok query
  | none =>
    let ended := (stdin.toList.reverse.dropWhile fun c => c == '\n' || c == '\r').reverse
    if ended.all Text.isBlank then .error .noQuery else .ok (String.ofList ended)

-- Each error on a line of its own. They are the answer to the question asked, so they go to the
-- output.
def reportErrors (errors : List ParseError) : Outcome :=
  if errors.isEmpty then .success "valid"
  else { code := 1, stdout := String.join (errors.map fun error => error.describe ++ "\n") }

def reportViolations (violations : List Violation) : Outcome :=
  { Outcome.success (validationJson violations).pretty with
    code := if violations.isEmpty then 0 else 1 }

-- A request runs with any library of patterns, and the program with the one that it brings along.
def Request.run [Pattern.Engine] (files : Files) (stdin : String) : Request → Outcome
  | .map query mappings config context =>
      .ofResult (do mapQuery files { mappings, config, context } (← readQuery query stdin)) .success
  | .discover query indented =>
      .ofResult (do inventoryText indented (← readQuery query stdin)) .success
  | .validate query => .ofResult (do queryErrors (← readQuery query stdin)) reportErrors
  | .parse query indented => .ofResult (do outlineText indented (← readQuery query stdin)) .success
  | .checkConfig path => .ofResult (configViolations files path) reportViolations

def run (files : Files) (stdin : String) (arguments : List String) : Outcome :=
  match Request.ofArguments? arguments with
  | some request => request.run files stdin
  | none => .usage

end SearchPipeline.Command
