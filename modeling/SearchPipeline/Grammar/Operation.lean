import SearchPipeline.Grammar.Expression

namespace SearchPipeline.Grammar

open Rule

section Inner

variable (expression : Nat → Rule Expr) (operation : Nat → Rule Operation)

-- Gives a form the span of the tokens that it took.
def spanned {α : Type} (form : Rule (Span → α)) : Rule α := do
  let first ← position
  let make ← form
  return make (← spanFrom first)

-- expression LIKE value
def likeForm : Rule (Span → Operation) := do
  let expr ← expression 0
  let _ ← expect .like
  let pattern ← value
  return .like expr pattern

-- expression IN '(' expressions ')'
def withinForm : Rule (Span → Operation) := do
  let expr ← expression 0
  let _ ← expect .within
  let _ ← expect .openParen
  let items ← expressionList expression
  let _ ← expect .closeParen
  return .within expr items

-- The operand of NOT takes in the AND and OR behind it.
def notStrength : Nat := 9

-- NOT operation
def notForm : Rule (Span → Operation) := do
  let _ ← expect .neg
  let inner ← operation notStrength
  return .not inner

def outputMode : Rule OutputMode := do
  if ← eat .output then return .replace
  else if ← eat .outputNew then return .fill
  else do
    let _ ← attempt (miss (.kind .output) : Rule Unit)
    miss (.kind .outputNew)

-- The given number of expressions, one behind the other.
def inputs : Nat → Rule (List Expr)
  | 0 => return []
  | count + 1 => do
    let first ← expression 0
    return first :: (← inputs count)

-- The given number of further names, each behind a comma.
def moreOutputs : Nat → Rule (List Name)
  | 0 => return []
  | count + 1 => do
    let _ ← expect .comma
    let first ← name
    return first :: (← moreOutputs count)

-- expression+ OUTPUT name (',' name)*, with `more + 1` on either side
def outputForm (more : Nat) : Rule (Span → Operation) := do
  let before ← inputs expression (more + 1)
  let mode ← outputMode
  let first ← name
  let others ← moreOutputs more
  return .output before mode (first :: others)

-- A further name of a BY clause, with or without a comma before it. A comma that no name
-- follows is left alone.
def groupingStep (found : List Name) : Rule (Option (List Name)) := do
  if (← peek) = .comma ∧ (← peekAt 1).isName then
    let _ ← advance
    return some ((← name) :: found)
  else if (← peek).isName then return some ((← name) :: found)
  else return none

-- BY name (','? name)*
def groupingForm : Rule (Span → Operation) := do
  let _ ← expect .grouping
  let first ← name
  let names ← repeatStep groupingStep [first]
  return .grouping names.reverse

-- expression AS name
def renameForm : Rule (Span → Operation) := do
  let expr ← expression 0
  let _ ← expect .aliasing
  let target ← name
  return .rename expr target

-- name comparison expression
def compareForm : Rule (Span → Operation) := do
  let field ← name
  match CompareOp.ofKind? (← peek) with
  | none => miss .comparison
  | some op =>
    let _ ← advance
    let value ← expression 0
    return .compare field op value

def bareForm : Rule (Span → Operation) := do
  let expr ← expression 0
  return .bare expr

-- '(' operation ')'
def parenForm : Rule (Span → Operation) := do
  let _ ← expect .openParen
  let inner ← operation 0
  let _ ← expect .closeParen
  return .paren inner

-- The forms in the order in which they are tried.
def forms : List (Rule (Span → Operation)) :=
  [likeForm expression, withinForm expression, notForm operation, outputForm expression 0,
   outputForm expression 1, outputForm expression 2, groupingForm, renameForm expression,
   compareForm expression, bareForm expression, parenForm operation]

def simpleOperation : Rule Operation :=
  firstOf ((forms expression operation).map spanned ++ [miss .operation])

inductive Connective where
  | and
  | or
deriving DecidableEq, Repr

namespace Connective

def ofKind? : Kind → Option Connective
  | .conj => some and
  | .disj => some or
  | _ => none

def strength : Connective → Nat
  | and => 13
  | or => 12

def join : Connective → Operation → Operation → Operation
  | and => .and
  | or => .or

end Connective

-- One more AND or OR, if it binds strongly enough. Both group to the left.
def connectiveStep (least : Nat) (lhs : Operation) : Rule (Option Operation) := do
  match Connective.ofKind? (← peek) with
  | none => return none
  | some connective =>
    if connective.strength < least then return none
    else
      let _ ← advance
      let rhs ← operation (connective.strength + 1)
      return some (connective.join lhs rhs)

-- A simple operation and the connectives behind it that bind with at least the given strength.
def connectives (least : Nat) : Rule Operation := do
  let first ← simpleOperation expression operation
  repeatStep (connectiveStep operation least) first

end Inner

end SearchPipeline.Grammar
