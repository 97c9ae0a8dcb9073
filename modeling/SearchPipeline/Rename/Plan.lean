import SearchPipeline.Grammar.Parse
import SearchPipeline.Rename.Splice
import Std.Data.TreeMap

namespace SearchPipeline

-- New names by old names.
abbrev NameTable := Std.TreeMap String String

-- Why a name counts as a field.
inductive FieldPosition where
  | comparison
  | grouping
  | aliased
  | lookupInput
  | listed
deriving DecidableEq, Repr

structure FieldUse where
  name : Name
  position : FieldPosition
deriving DecidableEq, Repr

namespace Operation

-- The field uses of an operation of the given command. The table of a `lookup` is no field.
-- The target of an `eval` is defined there, not read.
def fieldUses (command : Option String) (table : Option Span) : Operation → List FieldUse
  | .compare field _ _ _ => if command = some "eval" then [] else [⟨field, .comparison⟩]
  | .grouping names _ => names.map (⟨·, .grouping⟩)
  | .rename expr _ _ => expr.asName?.toList.map (⟨·, .aliased⟩)
  | .output inputs _ _ _ =>
      (inputs.filter fun input => some input.span ≠ table).filterMap fun input =>
        input.asName?.map (⟨·, .lookupInput⟩)
  | .bare expr _ =>
      if command = some "fields" then
        (expr.asName?.filter (·.use = .field)).toList.map (⟨·, .listed⟩)
      else []
  | .not inner _ | .paren inner _ => fieldUses command table inner
  | .and lhs rhs | .or lhs rhs => fieldUses command table lhs ++ fieldUses command table rhs
  | .like _ _ _ | .within _ _ _ => []

end Operation

-- The table among the operands of a stage, which only a `lookup` has.
def stageTable? (command : Option String) (operations : List Operation) : Option Span :=
  if command = some "lookup" then lookupTable? operations else none

mutual

def Stage.fieldUses : Stage → List FieldUse
  | .mk _ command operations subquery _ =>
      let command := command.map (·.name)
      operations.flatMap (Operation.fieldUses command (stageTable? command operations)) ++
        match subquery with
        | some inner => Subquery.fieldUses inner
        | none => []

def Subquery.fieldUses : Subquery → List FieldUse
  | .mk opening later _ => Stage.fieldUses opening ++ stagesFieldUses later

def stagesFieldUses : List Stage → List FieldUse
  | [] => []
  | first :: rest => Stage.fieldUses first ++ stagesFieldUses rest

end

-- All field uses, in source order.
def Pipeline.fieldUses (pipeline : Pipeline) : List FieldUse :=
  pipeline.opening.fieldUses ++ stagesFieldUses pipeline.later

structure Rename where
  span : Span
  source : String
  target : String
  position : FieldPosition
deriving DecidableEq, Repr

def FieldUse.rename? (table : NameTable) (use : FieldUse) : Option Rename :=
  table[use.name.text]?.map fun target =>
    ⟨use.name.span, use.name.text, target, use.position⟩

-- The renames that a table asks for, in source order.
def Pipeline.renames (table : NameTable) (pipeline : Pipeline) : List Rename :=
  pipeline.fieldUses.filterMap (·.rename? table)

def Query.rename (table : NameTable) (query : Query) : Except SpliceError String :=
  Splice.replaceAll query.tokens
    ((query.pipeline.renames table).map fun rename => ⟨rename.span, rename.target⟩)

inductive RenameError where
  | unreadable (errors : List ParseError)
  | splice (error : SpliceError)

-- Reads a query and renames its fields.
def renameFields (source : String) (table : NameTable) : Except RenameError String := do
  let query ← (Query.parse source).mapError .unreadable
  (query.rename table).mapError .splice

end SearchPipeline
