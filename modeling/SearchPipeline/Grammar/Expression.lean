import SearchPipeline.Grammar.Rule

namespace SearchPipeline.Grammar

open Rule

-- name := WORD | command | function
def nameUse? (kind : Kind) : Option NameUse :=
  if kind = .word then some .field
  else if kind.isCommand then some .command
  else if kind.isFunction then some .function
  else none

def name : Rule Name := do
  match nameUse? (← peek) with
  | some use =>
    let mark ← advance
    return ⟨use, mark.text, .single mark.index⟩
  | none => miss (.kind .word)

-- A literal of one token.
def literal (make : String → Span → Value) : Rule Value := do
  let mark ← advance
  return make mark.text (.single mark.index)

-- value := TIME | STRING | name | ('+' | '-')? NUMBER
def value : Rule Value := do
  let kind ← peek
  if kind = .timeOrFunction ∨ kind = .time then literal .time
  else if kind = .string then literal .string
  else if kind.isName then return .name (← name)
  else if (kind = .plus ∨ kind = .minus) ∧ (← peekAt 1) = .number then
    let first ← position
    let sign ← advance
    let digits ← advance
    return .number (sign.text ++ digits.text) (← spanFrom first)
  else if kind = .number then literal .number
  else miss .value

section Inner

-- The rule for the expressions inside is an argument, so that nesting is bounded in one place.
variable (expression : Nat → Rule Expr)

-- expressions := (expression (',' expression)*)?
def expressionList : Rule (List Expr) := do
  if (← peek) = .closeParen then return []
  let first ← expression 0
  let rest ← repeatStep (fun found => do
    if ← eat .comma then return some ((← expression 0) :: found) else return none) []
  return first :: rest.reverse

-- call := function '(' expressions ')'
def call : Rule Expr := do
  let first ← position
  let mark ← advance
  let _ ← expect .openParen
  let args ← expressionList expression
  let _ ← expect .closeParen
  return .call ⟨mark.text, .single mark.index⟩ args (← spanFrom first)

-- A call is tried only where a function stands before a parenthesis.
def callAhead : Rule Expr := do
  if (← peek).isFunction ∧ (← peekAt 1) = .openParen then call expression else refuse

-- '(' expression ')'
def parenthesised : Rule Expr := do
  if (← peek) = .openParen then
    let first ← position
    let _ ← advance
    let inner ← expression 0
    let _ ← expect .closeParen
    return .paren inner (← spanFrom first)
  else refuse

-- The strength below which an operator ends the term next to a wildcard star.
def starStrength : Nat := 6

-- '*' expression '*', with the closing star attached
def containsTerm : Rule Expr := do
  let first ← position
  let _ ← advance
  let inner ← expression starStrength
  if (← peek) = .star ∧ (← look Tape.attachedLeft) then
    let _ ← advance
    return .contains inner (← spanFrom first)
  else refuse

-- '*' expression
def endsWithTerm : Rule Expr := do
  let first ← position
  let _ ← advance
  let inner ← expression starStrength
  return .endsWith inner (← spanFrom first)

-- '*'
def loneStar : Rule Expr := do
  let first ← position
  let _ ← advance
  return .wildcard (← spanFrom first)

def wildcards : Rule Expr := do
  if (← peek) = .star then
    firstOf [containsTerm expression, endsWithTerm expression, loneStar]
  else refuse

-- One '/' name of a path.
def segment (found : List Name) : Rule (Option (List Name)) := do
  if (← peek) = .slash ∧ (← peekAt 1).isName then
    let _ ← advance
    return some ((← name) :: found)
  else return none

-- ('/' name)+
def path : Rule Expr := do
  let first ← position
  match ← repeatStep segment [] with
  | [] => refuse
  | names => return .path names.reverse (← spanFrom first)

-- The operand of an operator.
def primary : Rule Expr :=
  firstOf [callAhead expression, parenthesised expression, wildcards expression, path,
    do return .value (← value)]

-- The strength of `*` as a product, and as the mark at the end of `term*`.
def productStrength : Nat := ArithOp.mult.strength

def startsWithStrength : Nat := 5

-- An operator and its right operand.
def operand (op : ArithOp) (lhs : Expr) : Rule Expr := do
  let _ ← advance
  return .binary op lhs (← expression op.rightStrength)

-- A star behind an operand. With a blank on the left only, it opens the next term. With a
-- blank on the right only, it is the mark at the end of `term*`, never a product.
def starStep (least : Nat) (lhs : Expr) : Rule (Option Expr) := do
  let left ← look Tape.attachedLeft
  let right ← look Tape.attachedRight
  if !left && right then return none
  let product ←
    if !(left && !right) && productStrength ≥ least then attempt (operand expression .mult lhs)
    else pure none
  match product with
  | some found => return some found
  | none =>
    if left && startsWithStrength ≥ least then
      let star ← advance
      return some (.startsWith lhs ⟨lhs.span.start, star.index + 1⟩)
    else return none

-- One more operator, if it binds strongly enough and has an operand on its right.
def operatorStep (least : Nat) (lhs : Expr) : Rule (Option Expr) := do
  let kind ← peek
  if kind = .star then starStep expression least lhs
  else
    match ArithOp.ofKind? kind with
    | none => return none
    | some op => if op.strength < least then return none else attempt (operand expression op lhs)

-- An operand and the operators behind it that bind with at least the given strength.
def operators (least : Nat) : Rule Expr := do
  let first ← primary expression
  repeatStep (operatorStep expression least) first

end Inner

end SearchPipeline.Grammar
