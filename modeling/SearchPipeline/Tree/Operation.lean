import SearchPipeline.Tree.Expr

namespace SearchPipeline

inductive CompareOp where
  | eq | ne | gt | lt | ge | le
deriving DecidableEq, Repr

def CompareOp.ofKind? : Kind → Option CompareOp
  | .eq => some eq
  | .ne => some ne
  | .gt => some gt
  | .lt => some lt
  | .ge => some ge
  | .le => some le
  | _ => none

-- `OUTPUT` replaces fields that exist, `OUTPUTNEW` fills in missing ones.
inductive OutputMode where
  | replace
  | fill
deriving DecidableEq, Repr

inductive Operation where
  -- `term LIKE value`
  | like (expr : Expr) (pattern : Value) (span : Span)
  -- `term IN (a, b)`
  | within (expr : Expr) (items : List Expr) (span : Span)
  | not (inner : Operation) (span : Span)
  -- `a b OUTPUT c, d`, with as many fields behind the keyword as inputs before it.
  | output (inputs : List Expr) (mode : OutputMode) (outputs : List Name) (span : Span)
  -- `BY a, b`
  | grouping (names : List Name) (span : Span)
  -- `term AS name`
  | rename (expr : Expr) (target : Name) (span : Span)
  | compare (field : Name) (op : CompareOp) (value : Expr) (span : Span)
  | bare (expr : Expr) (span : Span)
  | paren (inner : Operation) (span : Span)
  | and (lhs rhs : Operation)
  | or (lhs rhs : Operation)

namespace Operation

def span : Operation → Span
  | like _ _ span | within _ _ span | not _ span | output _ _ _ span | grouping _ span
  | rename _ _ span | compare _ _ _ span | bare _ span | paren _ span => span
  | and lhs rhs | or lhs rhs => lhs.span.join rhs.span

-- The operations combined by this one, left to right.
def children : Operation → List Operation
  | not inner _ | paren inner _ => [inner]
  | and lhs rhs | or lhs rhs => [lhs, rhs]
  | _ => []

-- The expressions that belong to this operation itself, left to right.
def expressions : Operation → List Expr
  | like expr _ _ | rename expr _ _ => [expr]
  | within expr items _ => expr :: items
  | compare _ _ value _ => [value]
  | bare expr _ => [expr]
  | output inputs _ _ _ => inputs
  | _ => []

def asBare? : Operation → Option Expr
  | bare expr _ => some expr
  | _ => none

end Operation

-- The table among the operands of a `lookup`: the first operand, which is the first input when
-- an output clause has taken it in.
def lookupTable? : List Operation → Option Span
  | [] => none
  | .output inputs _ _ _ :: _ => inputs.head?.map Expr.span
  | first :: _ => some first.span

end SearchPipeline
