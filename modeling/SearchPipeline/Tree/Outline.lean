import SearchPipeline.Json.Write
import SearchPipeline.Tree.Stage

namespace SearchPipeline

-- A node of a tree as a label, a compact text and the nodes inside, in source order.
inductive Outline where
  | node (label : String) (text : String) (children : List Outline)

namespace Outline

def label : Outline → String
  | node label _ _ => label

def text : Outline → String
  | node _ text _ => text

def children : Outline → List Outline
  | node _ _ children => children

mutual

-- Empty texts and empty lists of nodes are left out.
def toJson : Outline → Json
  | node label text children =>
      .object ([("type", .string label)] ++
        (if text.isEmpty then [] else [("text", .string text)]) ++
        (if children.isEmpty then [] else [("children", .list (toJsons children))]))

def toJsons : List Outline → List Json
  | [] => []
  | first :: rest => toJson first :: toJsons rest

end

end Outline

namespace Query

variable (query : Query)

def outlineLeaf (label : String) (span : Span) : Outline := .node label (query.compactText span) []

def outlineName (name : Name) : Outline :=
  let label := match name.use with
    | .field => "field"
    | .command => "command_use"
    | .function => "function_use"
  query.outlineLeaf label name.span

def outlineValue : Value → Outline
  | .name name => query.outlineName name
  | .time _ span => query.outlineLeaf "date" span
  | .string _ span => query.outlineLeaf "string" span
  | .number _ span => query.outlineLeaf "number" span

mutual

def outlineExpr (expr : Expr) : Outline :=
  match expr with
  | .value value => query.outlineValue value
  | .call function args span =>
      .node "call" (query.compactText span)
        (query.outlineLeaf "function" function.span :: outlineExprs args)
  | .paren inner span => .node "paren_expression" (query.compactText span) [outlineExpr inner]
  | .contains inner span => .node "contains" (query.compactText span) [outlineExpr inner]
  | .endsWith inner span => .node "ends_with" (query.compactText span) [outlineExpr inner]
  | .startsWith inner span => .node "starts_with" (query.compactText span) [outlineExpr inner]
  | .wildcard span => query.outlineLeaf "wildcard" span
  | .path names span => .node "path" (query.compactText span) (names.map query.outlineName)
  | .binary op lhs rhs =>
      .node "binary" (query.compactText (Expr.binary op lhs rhs).span)
        [outlineExpr lhs, outlineExpr rhs]

def outlineExprs (exprs : List Expr) : List Outline :=
  match exprs with
  | [] => []
  | first :: rest => outlineExpr first :: outlineExprs rest

end

-- Output clauses are told apart by the number of their inputs.
def outputLabel : Nat → String
  | 1 => "output_single"
  | 2 => "output_multi"
  | _ => "output_multi_in"

def outlineOperation : Operation → Outline
  | .like expr pattern span =>
      .node "like" (query.compactText span) [query.outlineExpr expr, query.outlineValue pattern]
  | .within expr items span =>
      .node "in" (query.compactText span) (query.outlineExpr expr :: query.outlineExprs items)
  | .not inner span => .node "not" (query.compactText span) [outlineOperation inner]
  | .output inputs _ outputs span =>
      .node (outputLabel inputs.length) (query.compactText span)
        (query.outlineExprs inputs ++ outputs.map query.outlineName)
  | .grouping names span => .node "by" (query.compactText span) (names.map query.outlineName)
  | .rename expr target span =>
      .node "rename" (query.compactText span) [query.outlineExpr expr, query.outlineName target]
  | .compare field _ value span =>
      .node "key_value" (query.compactText span)
        [query.outlineName field, query.outlineExpr value]
  | .bare expr span => .node "bare_expression" (query.compactText span) [query.outlineExpr expr]
  | .paren inner span => .node "paren" (query.compactText span) [outlineOperation inner]
  | .and lhs rhs =>
      .node "and" (query.compactText (Operation.and lhs rhs).span)
        [outlineOperation lhs, outlineOperation rhs]
  | .or lhs rhs =>
      .node "or" (query.compactText (Operation.or lhs rhs).span)
        [outlineOperation lhs, outlineOperation rhs]

def outlineCommand (command : Command) : Outline := query.outlineLeaf "command" command.span

mutual

def outlineStage (label : String) : Stage → Outline
  | .mk _ command operations subquery span =>
      .node label (query.compactText span)
        (command.toList.map query.outlineCommand ++ operations.map query.outlineOperation ++
          match subquery with
          | some inner => [outlineSubquery inner]
          | none => [])

def outlineSubquery : Subquery → Outline
  | .mk opening later span =>
      .node "subquery" (query.compactText span)
        (outlineStage "init_command" opening :: outlineStages later)

def outlineStages : List Stage → List Outline
  | [] => []
  | first :: rest => outlineStage "next_command" first :: outlineStages rest

end

def outline : Outline :=
  .node "query" (query.compactText query.pipeline.span)
    (query.outlineStage "init_command" query.pipeline.opening ::
      query.outlineStages query.pipeline.later)

end Query

end SearchPipeline
