import SearchPipeline.Proofs.Grammar.Derivation

namespace SearchPipeline

open Grammar

-- The nodes of a stage, whether it opens a pipeline or not.
def Stage.nodes (stage : Stage) : List Node :=
  stage.command.toList.map .command ++ stage.operations.map .operation ++
    stage.subquery.toList.map .subquery

namespace Grammar

theorem filterMap_separated {between : Part} (hbetween : between.node? = none)
    (nodes : List Node) : (separated between nodes).filterMap Part.node? = nodes := by
  cases nodes with
  | nil => rfl
  | cons first rest =>
      have hrest : (rest.flatMap fun node => [between, .node node]).filterMap Part.node? = rest := by
        rw [List.filterMap_flatMap]
        simp only [List.filterMap_cons_none hbetween]
        exact List.flatMap_singleton' rest
      simp [separated, Part.node?, hrest]

theorem filterMap_commas (kinds : List Kind) (nodes : List Node) :
    (separated (.token kinds) nodes).filterMap Part.node? = nodes :=
  filterMap_separated rfl nodes

theorem filterMap_bodyParts (operations : List Operation) (subquery : Option Subquery) :
    (bodyParts operations subquery).filterMap Part.node? =
      operations.map .operation ++ subquery.toList.map .subquery := by
  have hoperations : (operations.flatMap fun operation =>
      [Part.node (.operation operation), .optional [.comma]]).filterMap Part.node? =
        operations.map Node.operation := by
    rw [List.filterMap_flatMap, List.map_eq_flatMap]
    rfl
  rw [bodyParts, List.filterMap_append, hoperations]
  cases subquery <;> rfl

theorem filterMap_laterParts (later : List Stage) :
    (laterParts later).filterMap Part.node? = later.map .stage := by
  rw [laterParts, List.filterMap_flatMap, List.map_eq_flatMap]
  rfl

theorem filterMap_rootParts (pipeline : Pipeline) : (rootParts pipeline).filterMap Part.node? =
    .opening pipeline.opening :: pipeline.later.map .stage := by
  rw [rootParts, List.filterMap_cons_some (show Part.node? (.node _) = some _ from rfl),
    filterMap_laterParts]

namespace Node

theorem children_value (v : Value) : (value v).children =
    match v with
    | .name n => [.name n]
    | _ => [] := by
  cases v <;> rfl

theorem children_expr (e : Expr) : (expr e).children =
    match e with
    | .value v => [.value v]
    | .call f args _ => .function f :: args.map .expr
    | .paren inner _ | .contains inner _ | .endsWith inner _ | .startsWith inner _ => [.expr inner]
    | .wildcard _ => []
    | .path names _ => names.map .name
    | .binary _ lhs rhs => [.expr lhs, .expr rhs] := by
  cases e with
  | call f args span =>
      simp [children, parts, exprParts, Part.node?, filterMap_commas, List.filterMap_cons]
  | path names span =>
      rw [children, parts, exprParts, List.filterMap_flatMap]
      exact List.map_eq_flatMap.symm
  | _ => rfl

theorem children_operation (o : Operation) : (operation o).children =
    match o with
    | .like e pattern _ => [.expr e, .value pattern]
    | .within e items _ => .expr e :: items.map .expr
    | .not inner _ | .paren inner _ => [.operation inner]
    | .output inputs _ outputs _ => inputs.map .expr ++ outputs.map .name
    | .grouping names _ => names.map .name
    | .rename e target _ => [.expr e, .name target]
    | .compare field _ e _ => [.name field, .expr e]
    | .bare e _ => [.expr e]
    | .and lhs rhs | .or lhs rhs => [.operation lhs, .operation rhs] := by
  cases o with
  | within e items span =>
      simp [children, parts, operationParts, Part.node?, filterMap_commas, List.filterMap_cons]
  | output inputs mode outputs span =>
      have hinputs : (inputs.map (Part.node ∘ expr)).filterMap Part.node? = inputs.map expr := by
        rw [List.filterMap_map]
        exact congrFun (List.filterMap_eq_map ..) inputs
      simp [children, parts, operationParts, filterMap_commas, hinputs, Part.node?,
        List.filterMap_cons]
  | grouping names span => exact filterMap_separated rfl (names.map name)
  | _ => rfl

theorem children_opening (s : Stage) : (opening s).children = s.nodes := by
  have hcommand : (s.command.toList.map (Part.node ∘ command)).filterMap Part.node? =
      s.command.toList.map command := by
    cases s.command <;> rfl
  have hpiped : (if s.piped then [Part.token [.pipe]] else []).filterMap Part.node? = [] := by
    split <;> rfl
  rw [children, parts, List.filterMap_append, List.filterMap_append, filterMap_bodyParts, hpiped,
    hcommand, Stage.nodes, List.nil_append, List.append_assoc]

theorem children_stage (s : Stage) : (stage s).children = s.nodes := by
  have hcommand : (s.command.toList.map (Part.node ∘ command)).filterMap Part.node? =
      s.command.toList.map command := by
    cases s.command <;> rfl
  rw [children, parts, List.filterMap_append, filterMap_bodyParts, hcommand, Stage.nodes,
    List.append_assoc]

theorem children_subquery (q : Subquery) :
    (subquery q).children = .opening q.opening :: q.later.map .stage := by
  simp [children, parts, filterMap_laterParts, Part.node?, List.filterMap_cons]

-- A node and all nodes inside it, at any depth.
inductive Holds (node : Node) : Node → Prop where
  | self : Holds node node
  | inside {inner child : Node} : Holds node inner → child ∈ inner.children → Holds node child

namespace Holds

variable {node child other : Node}

theorem of_child (hchild : child ∈ node.children) (h : child.Holds other) : node.Holds other := by
  induction h with
  | self => exact .inside .self hchild
  | inside _ hmem ih => exact .inside ih hmem

theorem self_or_child (h : node.Holds other) :
    other = node ∨ ∃ child ∈ node.children, child.Holds other := by
  induction h with
  | self => exact .inl rfl
  | inside _ hmem ih =>
      rcases ih with rfl | ⟨child, hchild, hinner⟩
      · exact .inr ⟨_, hmem, .self⟩
      · exact .inr ⟨child, hchild, .inside hinner hmem⟩

end Holds

end Node

end Grammar

theorem Query.has_opening (pipeline : Pipeline) : pipeline.Has (.opening pipeline.opening) :=
  .stage (by simp [filterMap_rootParts])

theorem Query.has_later {pipeline : Pipeline} {s : Stage} (h : s ∈ pipeline.later) :
    pipeline.Has (.stage s) :=
  .stage (by simp [filterMap_rootParts, h])

end SearchPipeline
