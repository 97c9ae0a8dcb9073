import SearchPipeline.Grammar.Parse
import SearchPipeline.Inventory.Basic
import SearchPipeline.Inventory.Reference
import SearchPipeline.MacroCall
import SearchPipeline.Rename.Plan

namespace SearchPipeline

-- What an operand says about a field or about anything else.
inductive Mention where
  | reads (field : String)
  | derives (field : String)
  | found (finding : Finding)
deriving DecidableEq, Repr

namespace Mention

-- A field read counts as input when it is not derived, reads like a field and is no command.
def isInput (derived : List String) (field : String) : Bool :=
  !derived.contains field && FieldName.isLikely field.toList && !(Keyword.classify field).isCommand

-- Settles mentions one after the other, given the fields derived so far: the findings, and the
-- fields derived in the end.
def settle (derived : List String) : List Mention → List Finding × List String
  | [] => ([], derived)
  | .reads field :: rest =>
      let (findings, after) := settle derived rest
      (if isInput derived field then ⟨.inputField, field⟩ :: findings else findings, after)
  | .derives field :: rest => settle (field :: derived) rest
  | .found finding :: rest =>
      let (findings, after) := settle derived rest
      (finding :: findings, after)

def datamodel (name : String) : Mention := .found ⟨.datamodel, name⟩

-- A dataset needs the name of its model and a name of its own.
def dataset (model object : String) : List Mention :=
  if model = "" ∨ object = "" then [] else [.found ⟨.dataset, model ++ "." ++ object⟩]

-- A model, and the dataset when the reference names one.
def modelReference (reference : List Char) : List Mention :=
  match Reference.splitModel reference with
  | (model, some object) =>
      datamodel (String.ofList model) :: dataset (String.ofList model) (String.ofList object)
  | (model, none) => [datamodel (String.ofList model)]

def datasetReference (text : List Char) : List Mention :=
  match Reference.dataset? text with
  | some (model, object) =>
      datamodel (String.ofList model) :: dataset (String.ofList model) (String.ofList object)
  | none => []

end Mention

mutual

-- The names anywhere in an expression, apart from commands.
def Expr.references : Expr → List Mention
  | .value (.name name) => if name.use = .command then [] else [.reads name.text]
  | .value _ | .wildcard _ | .path _ _ => []
  | .call _ args _ => exprsReferences args
  | .paren inner _ | .contains inner _ | .endsWith inner _ | .startsWith inner _ =>
      Expr.references inner
  | .binary _ lhs rhs => Expr.references lhs ++ Expr.references rhs

def exprsReferences : List Expr → List Mention
  | [] => []
  | first :: rest => Expr.references first ++ exprsReferences rest

end

mutual

-- Calls anywhere in an expression read their arguments.
def Expr.callReads : Expr → List Mention
  | .value _ | .wildcard _ | .path _ _ => []
  | .call _ args _ => exprsReferences args ++ exprsCallReads args
  | .paren inner _ | .contains inner _ | .endsWith inner _ | .startsWith inner _ =>
      Expr.callReads inner
  | .binary _ lhs rhs => Expr.callReads lhs ++ Expr.callReads rhs

def exprsCallReads : List Expr → List Mention
  | [] => []
  | first :: rest => Expr.callReads first ++ exprsCallReads rest

end

namespace Operation

-- A comparison outside `eval`. Three keys name a source of data, and their value is found in
-- place of a field.
def comparisonMentions (field : Name) (value : Expr) : List Mention :=
  let text := value.asValue?.map fun value => Text.strip '"' value.text.toList
  match field.text.toLower with
  | "sourcetype" => text.toList.map fun text => .found ⟨.sourcetype, String.ofList text⟩
  | "source" => text.toList.map fun text => .found ⟨.source, String.ofList text⟩
  | "datamodel" => text.toList.flatMap Mention.modelReference
  | _ => [.reads field.text]

-- What an operation mentions by its form, whatever the command, but that `eval` defines the
-- left side of its comparisons.
def mentions (command : Option String) (table : Option Span) : Operation → List Mention
  | .compare field _ value _ =>
      (if command = some "eval" then .derives field.text :: value.references
       else comparisonMentions field value) ++ value.callReads
  | .grouping names _ => names.map fun name => .reads name.text
  | .rename expr target _ =>
      expr.asName?.toList.map (fun name => .reads name.text) ++ [.derives target.text] ++
        expr.callReads
  | .output inputs _ outputs _ =>
      ((inputs.filter fun input => some input.span ≠ table).filterMap Expr.asName?).map
          (fun name => .reads name.text) ++
        outputs.map (fun name => .derives name.text) ++ exprsCallReads inputs
  | .not inner _ | .paren inner _ => mentions command table inner
  | .and lhs rhs | .or lhs rhs => mentions command table lhs ++ mentions command table rhs
  | .like expr _ _ | .bare expr _ => expr.callReads
  | .within expr items _ => exprsCallReads (expr :: items)

end Operation

namespace Query

variable (query : Query)

def operandText (operation : Operation) : String := query.compactText operation.span

-- `lookup table key ... OUTPUT field, ...`
def lookupMentions (operations : List Operation) : List Mention :=
  (lookupTable? operations).toList.map (fun span => .found ⟨.lookup, query.compactText span⟩) ++
    ((operations.drop 1).filter (·.asBare?.isSome)).map fun operation =>
      .reads (query.operandText operation)

def dropCsv (name : List Char) : List Char :=
  if ".csv".toList.isSuffixOf name then name.dropLast.dropLast.dropLast.dropLast else name

-- `inputlookup [options] file.csv`
def inputlookupMentions (operations : List Operation) : List Mention :=
  let file := (operations.find? (·.asBare?.isSome)).or operations.head?
  file.toList.map fun operation =>
    .found ⟨.lookup, String.ofList (dropCsv (query.operandText operation).toList)⟩

-- `datamodel Model Dataset [search]`
def datamodelMentions : List Operation → List Mention
  | model :: object :: rest =>
      let model := query.operandText model
      [Mention.datamodel model] ++ Mention.dataset model (query.operandText object) ++
        ((rest.map query.operandText).filter (·.toLower ≠ "search")).map .reads
  | _ => []

-- The operands of `tstats` mix options, fields and calls, so each is searched for all of them.
def tstatsMentions (operations : List Operation) : List Mention :=
  operations.flatMap fun operation =>
    let text := (query.operandText operation).toList
    (Reference.modelValue? text).toList.flatMap Mention.modelReference ++
      Mention.datasetReference text ++
      (if FieldName.isOfModel text then [.reads (String.ofList text)] else []) ++
      (Reference.callArgument? text).toList.map (fun field => .reads (String.ofList field))

-- `pivot Model Object ...`, with or without quotes
def pivotMentions : List Operation → List Mention
  | model :: object :: _ =>
      let model := String.ofList (Reference.unquote (query.operandText model).toList)
      let object := String.ofList (Reference.unquote (query.operandText object).toList)
      [Mention.datamodel model] ++ Mention.dataset model object
  | _ => []

-- What the operands mention because of the command before them.
def commandMentions (command : Option String) (operations : List Operation) : List Mention :=
  match command with
  | some "lookup" => query.lookupMentions operations
  | some "fields" => operations.map fun operation => .reads (query.operandText operation)
  | some "inputlookup" => query.inputlookupMentions operations
  | some "datamodel" => query.datamodelMentions operations
  | some "tstats" => query.tstatsMentions operations
  | some "from" =>
      operations.flatMap fun operation =>
        Mention.datasetReference (query.operandText operation).toList
  | some "pivot" => query.pivotMentions operations
  | _ => []

-- Everything the operands of a stage mention.
def stageMentions (command : Option String) (operations : List Operation) : List Mention :=
  query.commandMentions command operations ++
    operations.flatMap (Operation.mentions command (stageTable? command operations))

-- Commands whose operands are a branch of their own.
def opensBranch (command : Option String) : Bool :=
  command == some "append" || command == some "join" || command == some "multisearch"

mutual

-- The findings of a stage and the fields derived behind it, given those derived before it.
def stageFindings (derived : List String) : Stage → List Finding × List String
  | .mk _ command operations subquery _ =>
      let command := command.map (·.name)
      let branch := opensBranch command
      let (findings, after) :=
        Mention.settle (if branch then [] else derived) (query.stageMentions command operations)
      let inner :=
        match subquery with
        | some inner => subqueryFindings inner
        | none => []
      (findings ++ inner, if branch then derived else after)

def subqueryFindings : Subquery → List Finding
  | .mk opening later _ =>
      let (findings, derived) := stageFindings [] opening
      findings ++ stagesFindings derived later

def stagesFindings (derived : List String) : List Stage → List Finding
  | [] => []
  | first :: rest =>
      let (findings, derived) := stageFindings derived first
      findings ++ stagesFindings derived rest

end

def findings : List Finding := query.stagesFindings [] query.pipeline.stages

-- The inventory of a query that has been read. Macros are not part of it.
def inventory : Inventory := .ofFindings query.findings

end Query

-- The inventory of a query text. Macros make a query unreadable; when there are any, they are
-- what can be said about it.
def Inventory.discover (source : String) : Except (List ParseError) Inventory :=
  let macros := MacroCall.names source
  match Query.parse source with
  | .ok query => .ok { query.inventory with macros }
  | .error errors => if macros.isEmpty then .error errors else .ok { macros }

end SearchPipeline
