import SearchPipeline.Grammar.Operation

namespace SearchPipeline.Grammar

open Rule

-- The rules that contain one another.
structure Level where
  operation : Nat → Rule Operation
  expression : Nat → Rule Expr
  subquery : Rule Subquery

def opensExpression (kind : Kind) : Bool :=
  kind.isName ||
    match kind with
    | .openParen | .star | .slash | .time | .string | .number | .plus | .minus => true
    | _ => false

def opensOperation (kind : Kind) : Bool :=
  opensExpression kind || kind == .neg || kind == .grouping

-- An operation and the comma that may follow it.
def operand? (level : Level) (found : List Operation) : Rule (Option (List Operation)) := do
  if opensOperation (← peek) then
    let operation ← level.operation 0
    let _ ← eat .comma
    return some (operation :: found)
  else return none

def subquery? (level : Level) : Rule (Option Subquery) := do
  if (← peek) = .openBracket then return some (← level.subquery) else return none

-- body := (operation ','?)* subquery?, and not nothing
def body (level : Level) : Rule (List Operation × Option Subquery) := do
  let operations ← repeatStep (operand? level) []
  let subquery ← subquery? level
  if operations.isEmpty && subquery.isNone then miss .operation
  else return (operations.reverse, subquery)

def command : Rule Command := do
  let kind ← peek
  if kind.isCommand then
    let mark ← advance
    return ⟨mark.text, kind, .single mark.index⟩
  else miss .command

-- A command that may open a pipeline, with its body.
def openingWithCommand (level : Level) :
    Rule (Option Command × List Operation × Option Subquery) := do
  if (← peek) = .openingCommand then
    let command ← command
    return (some command, ← body level)
  else refuse

-- opening := '|'? OPENING_COMMAND? body. The word `search` alone is a search for that word.
def opening (level : Level) : Rule Stage := do
  let first ← position
  let piped ← eat .pipe
  let (command, operations, subquery) ←
    firstOf [openingWithCommand level, do return (none, ← body level)]
  return .mk piped command operations subquery (← spanFrom first)

-- stage := command body
def stage (level : Level) : Rule Stage := do
  let first ← position
  let command ← command
  let (operations, subquery) ← body level
  return .mk false (some command) operations subquery (← spanFrom first)

-- '|' stage
def laterStage (level : Level) (found : List Stage) : Rule (Option (List Stage)) := do
  if ← eat .pipe then return some ((← stage level) :: found) else return none

-- subquery := '[' opening ('|' stage)* ']'
def bracketed (level : Level) : Rule Subquery := do
  let first ← position
  let _ ← expect .openBracket
  let opening ← opening level
  let later ← repeatStep (laterStage level) []
  let _ ← expect .closeBracket
  return .mk opening later.reverse (← spanFrom first)

-- Reads something nested, one level deeper for as long. At the bound the nesting is too deep, and
-- once it was so anywhere, nothing nested is read any more.
def enter {α : Type} (rule : Rule α) : Rule α := fun tape pos trail =>
  if trail.tooDeep.isSome then .stuck pos trail
  else if maxNesting ≤ trail.depth then .stuck pos { trail with tooDeep := some pos }
  else (rule tape pos trail.deeper).shallower

-- Reading an expression twice from the same place with the same strength gives the same
-- answer, so the answer is kept.
def remembered (least : Nat) (rule : Rule Expr) : Rule Expr := fun tape pos trail =>
  match trail.memo[(pos, least)]? with
  | some (some (expr, stop)) => .done expr stop trail
  | some none => .stuck pos trail
  | none => rule tape pos trail

def record (least : Nat) (rule : Rule Expr) : Rule Expr := fun tape pos trail =>
  match rule tape pos trail with
  | .done expr stop trail =>
      .done expr stop { trail with memo := trail.memo.insert (pos, least) (some (expr, stop)) }
  | .stuck stop trail =>
      .stuck stop { trail with memo := trail.memo.insert (pos, least) none }

-- The rules of a level read what is inside them with those of the level below. By level zero the
-- depth has come to the bound, so that its rules are not entered. With `keep`, expressions once read
-- are remembered.
def level (keep : Bool) : Nat → Level
  | 0 =>
    { operation := fun _ => enter refuse
      expression := fun least => if keep then remembered least (enter refuse) else enter refuse
      subquery := enter refuse }
  | room + 1 =>
    let inner := level keep room
    let operators := operators inner.expression
    { operation := fun least => enter (connectives inner.expression inner.operation least)
      expression := fun least =>
        if keep then remembered least (enter (record least (operators least)))
        else enter (operators least)
      subquery := enter (bracketed inner) }

end SearchPipeline.Grammar
