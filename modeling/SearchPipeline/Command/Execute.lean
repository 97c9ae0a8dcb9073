import SearchPipeline.Command.ContextArgument
import SearchPipeline.Mapping.Session
import SearchPipeline.Tree.Outline

namespace SearchPipeline.Command

open Mapping

-- The content of a file, or the reason why it cannot be read.
abbrev Files := String → Except String String

inductive Failure where
  | unreadable (errors : List ParseError)
  | splice (error : SpliceError)
  | config (error : ConfigError)
  | undecodable
  | file (reason : String)
  | noQuery
  | tooLong (bytes : Nat)
  | badContext (argument : String)

-- Longer queries, in bytes, are not read.
def maxQueryBytes : Nat := 64 * 1024

def Failure.message : Failure → String
  | unreadable errors => "Parse error: " ++ ParseError.describeAll errors
  | splice error => error.message
  | config error => "Config error: " ++ error.message
  | undecodable => "JSON error: the document does not fit"
  | file reason => "IO error: " ++ reason
  | noQuery => "No query provided. Pass it as an argument or pipe it to stdin."
  | tooLong bytes =>
      "Query is " ++ toString bytes ++ " bytes; the limit is " ++ toString maxQueryBytes ++ " bytes"
  | badContext argument => "Invalid context '" ++ argument ++ "': expected key=value"

-- Whether the failure comes from somewhere further inside.
def Failure.hasCause : Failure → Bool
  | unreadable _ | config _ | undecodable | file _ => true
  | splice _ | noQuery | tooLong _ | badContext _ => false

def ofRenameError : RenameError → Failure
  | .unreadable errors => .unreadable errors
  | .splice error => .splice error

structure MapOptions where
  mappings : Option String := none
  config : Option String := none
  context : List String := []

def checkLength (query : String) : Except Failure Unit :=
  if query.utf8ByteSize > maxQueryBytes then .error (.tooLong query.utf8ByteSize) else .ok ()

-- The inventory of a query as JSON.
def inventoryText (indented : Bool) (query : String) : Except Failure String := do
  checkLength query
  let inventory ← (Inventory.discover query).mapError .unreadable
  return inventory.toJson.render indented

-- The outline of a query as JSON.
def outlineText (indented : Bool) (query : String) : Except Failure String := do
  checkLength query
  let query ← (Query.parse query).mapError .unreadable
  return query.outline.toJson.render indented

-- What is wrong with a query; nothing, if it can be read.
def queryErrors (query : String) : Except Failure (List ParseError) := do
  checkLength query
  match Query.parse query with
  | .ok _ => return []
  | .error errors => return errors

variable [Pattern.Engine]

-- A session with the configuration and the mappings of the files named.
def openSession (files : Files) (options : MapOptions) : Except Failure Session := do
  let session ←
    match options.config with
    | none => pure {}
    | some path =>
      let text ← (files path).mapError fun reason => .config (.unreadable reason)
      let config ← (Config.load text).mapError .config
      (Session.ofConfig config).mapError .config
  match options.mappings with
  | none => return session
  | some path =>
    let text ← (files path).mapError .file
    ((Session.Update.loadText text).apply session).mapError .config

-- Renames the fields of a query. Without a context, the query's own is taken.
def mapQuery (files : Files) (options : MapOptions) (query : String) : Except Failure String := do
  checkLength query
  let session ← openSession files options
  if options.context.isEmpty then
    (session.map query).mapError ofRenameError
  else
    let context ← (ContextArgument.parse options.context).mapError .badContext
    (session.mapIn context query).mapError ofRenameError

-- What is wrong with the configuration in a file.
def configViolations (files : Files) (path : String) : Except Failure (List Violation) := do
  let text ← (files path).mapError .file
  match Config.decode? text with
  | none => throw .undecodable
  | some config => return config.violations

end SearchPipeline.Command
