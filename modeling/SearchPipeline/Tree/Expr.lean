import SearchPipeline.Token.Kind
import SearchPipeline.Token.Span

namespace SearchPipeline

-- Reserved words may stand where a name is expected; a name records what its token was.
inductive NameUse where
  | field
  | command
  | function
deriving DecidableEq, Repr

structure Name where
  use : NameUse
  text : String
  span : Span
deriving DecidableEq, Repr

-- The name at the head of a call.
structure FunctionName where
  text : String
  span : Span
deriving DecidableEq, Repr

inductive Value where
  -- A time literal, or `now`.
  | time (text : String) (span : Span)
  -- The text keeps its quotes.
  | string (text : String) (span : Span)
  | name (name : Name)
  -- The text has its sign, if any, directly before the digits.
  | number (text : String) (span : Span)
deriving DecidableEq, Repr

namespace Value

def text : Value → String
  | time text _ | string text _ | number text _ => text
  | name n => n.text

def span : Value → Span
  | time _ span | string _ span | number _ span => span
  | name n => n.span

def isQuoted : Value → Bool
  | string _ _ => true
  | _ => false

end Value

inductive ArithOp where
  | pow | mult | mod | div | add | sub
deriving DecidableEq, Repr

namespace ArithOp

def ofKind? : Kind → Option ArithOp
  | .caret => some pow
  | .star => some mult
  | .percent => some mod
  | .slash => some div
  | .plus => some add
  | .minus => some sub
  | _ => none

-- How strongly an operator binds.
def strength : ArithOp → Nat
  | pow => 10
  | mult | mod => 9
  | div => 8
  | add | sub => 2

-- The least strength of an operator inside the right operand. Only `^` takes its own kind
-- there, so `^` groups to the right and all others group to the left.
def rightStrength : ArithOp → Nat
  | pow => 10
  | mult | mod => 10
  | div => 9
  | add | sub => 3

end ArithOp

inductive Expr where
  | value (value : Value)
  | call (function : FunctionName) (args : List Expr) (span : Span)
  | paren (inner : Expr) (span : Span)
  -- `*term*`
  | contains (inner : Expr) (span : Span)
  -- `*term`
  | endsWith (inner : Expr) (span : Span)
  -- `term*`
  | startsWith (inner : Expr) (span : Span)
  | wildcard (span : Span)
  -- `/var/log`
  | path (names : List Name) (span : Span)
  | binary (op : ArithOp) (lhs rhs : Expr)

namespace Expr

def span : Expr → Span
  | value v => v.span
  | call _ _ span | paren _ span | contains _ span | endsWith _ span | startsWith _ span
  | wildcard span | path _ span => span
  | binary _ lhs rhs => lhs.span.join rhs.span

def asValue? : Expr → Option Value
  | value v => some v
  | _ => none

-- The name, when the expression is nothing but one.
def asName? : Expr → Option Name
  | value (.name name) => some name
  | _ => none

-- The direct parts that are expressions, left to right.
def children : Expr → List Expr
  | call _ args _ => args
  | paren inner _ | contains inner _ | endsWith inner _ | startsWith inner _ => [inner]
  | binary _ lhs rhs => [lhs, rhs]
  | value _ | wildcard _ | path _ _ => []

end Expr

end SearchPipeline
