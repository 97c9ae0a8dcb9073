import SearchPipeline.Inventory.Discover
import SearchPipeline.Mapping.Document
import SearchPipeline.Mapping.Evaluate
import SearchPipeline.Mapping.Validate
import SearchPipeline.Rename.Plan

namespace SearchPipeline.Mapping

inductive ConfigError where
  -- The text is no configuration.
  | undecodable
  -- The file cannot be read, for the reason given.
  | unreadable (reason : String)
  | invalid (violations : List Violation)

def ConfigError.message : ConfigError → String
  | undecodable => "failed to parse mapping config: the document does not fit"
  | unreadable reason => "failed to read mapping config: " ++ reason
  | invalid violations =>
      "invalid mapping config: " ++ "; ".intercalate (violations.map Violation.message)

def loadMappings (text : String) : Except ConfigError (List FieldMapping) :=
  match decodeMappings? text with
  | none => .error .undecodable
  | some mappings => .ok mappings

-- Puts mappings into a table. Of two for the same name, the later counts.
def overlay (table : NameTable) (mappings : List FieldMapping) : NameTable :=
  mappings.foldl (fun table mapping => table.insert mapping.source mapping.target) table

-- A table of names and perhaps a configuration. A session takes in more of both, and maps queries
-- with what it holds.
structure Session where
  table : NameTable := ∅
  config : Option Config := none

namespace Session

def load (session : Session) (mappings : List FieldMapping) : Session :=
  { session with table := overlay session.table mappings }

def mappingCount (session : Session) : Nat := session.table.size

-- A change of a session. It may fail, and the session goes on in either case.
abbrev Update := ExceptT ConfigError (StateM Session) Unit

namespace Update

-- What came of a change, and the session behind it.
def perform (update : Update) (session : Session) : Except ConfigError Unit × Session :=
  update.run.run session

-- The session behind a change, where a failure is the end of it.
def apply (update : Update) (session : Session) : Except ConfigError Session :=
  match update.perform session with
  | (.ok (), session) => .ok session
  | (.error error, _) => .error error

def load (mappings : List FieldMapping) : Update := modify fun session => session.load mappings

def loadText (text : String) : Update := do
  let mappings ← loadMappings text
  load mappings

end Update

end Session

variable [Pattern.Engine]

-- Reads and checks a configuration.
def Config.load (text : String) : Except ConfigError Config :=
  match Config.decode? text with
  | none => .error .undecodable
  | some config => if config.isValid then .ok config else .error (.invalid config.violations)

namespace Session

-- Takes in a configuration in place of the one before, and its mappings in addition to the
-- table.
def Update.configure (config : Config) : Update := do
  if !config.isValid then throw (.invalid config.violations)
  modify fun session => { session.load config.mappings with config := some config }

-- A new session with a configuration.
def ofConfig (config : Config) : Except ConfigError Session := (Update.configure config).apply {}

-- The table for a context: the mappings of the configuration lie over those of the session.
def effective (session : Session) (context : Context) : NameTable :=
  match session.config with
  | some config => overlay session.table (config.evaluate context)
  | none => session.table

-- Maps a query in the context that the query itself shows.
def map (session : Session) (source : String) : Except RenameError String := do
  let query ← (Query.parse source).mapError .unreadable
  (query.rename (session.effective (.ofInventory query.inventory))).mapError .splice

def mapIn (session : Session) (context : Context) (source : String) :
    Except RenameError String := do
  let query ← (Query.parse source).mapError .unreadable
  (query.rename (session.effective context)).mapError .splice

end Session

end SearchPipeline.Mapping
