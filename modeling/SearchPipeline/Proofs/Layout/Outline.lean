import SearchPipeline.Proofs.Grammar.Relabel
import SearchPipeline.Tree.Outline

namespace SearchPipeline

open Grammar

namespace Query

theorem outlineExprs_eq (query : Query) (exprs : List Expr) :
    query.outlineExprs exprs = exprs.map query.outlineExpr := by
  induction exprs with
  | nil => simp only [outlineExprs, List.map_nil]
  | cons first rest ih => simp only [outlineExprs, List.map_cons, ih]

theorem outlineStages_eq (query : Query) (stages : List Stage) :
    query.outlineStages stages = stages.map (query.outlineStage "next_command") := by
  induction stages with
  | nil => simp only [outlineStages, List.map_nil]
  | cons first rest ih => simp only [outlineStages, List.map_cons, ih]

theorem outlineStage_mk (query : Query) (label : String) (piped : Bool) (command : Option Command)
    (operations : List Operation) (subquery : Option Subquery) (span : Span) :
    query.outlineStage label (.mk piped command operations subquery span) =
      .node label (query.compactText span)
        (command.toList.map query.outlineCommand ++ operations.map query.outlineOperation ++
          subquery.toList.map query.outlineSubquery) := by
  cases subquery <;> simp [outlineStage]

-- Some nodes, with all nodes inside them, have the text in another query, at their new places, that
-- they have here.
variable {query other : Query} {r : Relabel} {within : Node → Prop} (hjoins : r.Joins)
  (hsame : ∀ node, within node →
    other.compactText (r.place node.span) = query.compactText node.span)
  (hinside : ∀ {node child : Node}, within node → child ∈ node.children → within child)

include hsame

theorem outlineName_relabel (name : Name) (h : within (.name name)) :
    other.outlineName (name.relabel r) = query.outlineName name := by
  have hself : other.compactText (r.place name.span) = query.compactText name.span := hsame _ h
  simp only [outlineName, outlineLeaf, Name.relabel, hself]

theorem outlineNames_relabel (names : List Name) (h : ∀ name ∈ names, within (.name name)) :
    (names.map (·.relabel r)).map other.outlineName = names.map query.outlineName := by
  rw [List.map_map]
  exact List.map_congr_left fun name hname => outlineName_relabel hsame name (h name hname)

include hinside

theorem outlineValue_relabel (value : Value) (h : within (.value value)) :
    other.outlineValue (value.relabel r) = query.outlineValue value := by
  have hself : other.compactText (r.place value.span) = query.compactText value.span := hsame _ h
  cases value with
  | name n => exact outlineName_relabel hsame n (hinside h (by simp [Node.children_value]))
  | time text span | string text span | number text span =>
      rw [Value.span] at hself
      simp only [Value.relabel, outlineValue, outlineLeaf, hself]

include hjoins

theorem outlineExpr_relabel : ∀ expr : Expr, within (.expr expr) →
    other.outlineExpr (expr.relabel r) = query.outlineExpr expr
  | .value v, h => by
      have hvalue := outlineValue_relabel hsame hinside v (hinside h (by simp [Node.children_expr]))
      simp only [Expr.relabel, outlineExpr, hvalue]
  | .call function args span, h => by
      have hself : other.compactText (r.place span) = query.compactText span := hsame _ h
      have hfunction : other.compactText (r.place function.span) = query.compactText function.span :=
        hsame (.function function) (hinside h (by simp [Node.children_expr]))
      have hargs : args.map (fun arg => other.outlineExpr (arg.relabel r)) =
          args.map query.outlineExpr :=
        List.map_congr_left fun arg harg => outlineExpr_relabel arg
          (hinside h (by simp [Node.children_expr, harg]))
      simp only [Expr.relabel, outlineExpr, outlineExprs_eq, relabelExprs_eq, List.map_map,
        Function.comp_def, FunctionName.relabel, outlineLeaf, hself, hfunction, hargs]
  | .paren inner span, h | .contains inner span, h | .endsWith inner span, h
  | .startsWith inner span, h => by
      have hself : other.compactText (r.place span) = query.compactText span := hsame _ h
      have hinner := outlineExpr_relabel inner (hinside h (by simp [Node.children_expr]))
      simp only [Expr.relabel, outlineExpr, hself, hinner]
  | .wildcard span, h => by
      have hself : other.compactText (r.place span) = query.compactText span := hsame _ h
      simp only [Expr.relabel, outlineExpr, outlineLeaf, hself]
  | .path names span, h => by
      have hself : other.compactText (r.place span) = query.compactText span := hsame _ h
      have hnames := outlineNames_relabel hsame names fun name hname =>
        hinside h (by simpa [Node.children_expr] using hname)
      simp only [Expr.relabel, outlineExpr, hself, hnames]
  | .binary op lhs rhs, h => by
      have hself := hsame _ h
      rw [Node.span, ← Expr.span_relabel hjoins, Expr.relabel] at hself
      have hlhs := outlineExpr_relabel lhs (hinside h (by simp [Node.children_expr]))
      have hrhs := outlineExpr_relabel rhs (hinside h (by simp [Node.children_expr]))
      simp only [Expr.relabel, outlineExpr, hself, hlhs, hrhs]

theorem outlineExprs_relabel (exprs : List Expr) (h : ∀ expr ∈ exprs, within (.expr expr)) :
    other.outlineExprs (exprs.map (·.relabel r)) = query.outlineExprs exprs := by
  rw [outlineExprs_eq, outlineExprs_eq, List.map_map]
  exact List.map_congr_left fun expr hexpr => outlineExpr_relabel hjoins hsame hinside expr (h expr hexpr)

theorem outlineOperation_relabel (operation : Operation)
    (h : within (.operation operation)) :
    other.outlineOperation (operation.relabel r) = query.outlineOperation operation := by
  induction operation with
  | like expr pattern span =>
      have hself : other.compactText (r.place span) = query.compactText span := hsame _ h
      have hexpr := outlineExpr_relabel hjoins hsame hinside expr
        (hinside h (by simp [Node.children_operation]))
      have hpattern := outlineValue_relabel hsame hinside pattern
        (hinside h (by simp [Node.children_operation]))
      simp only [Operation.relabel, outlineOperation, hself, hexpr, hpattern]
  | within expr items span =>
      have hself : other.compactText (r.place span) = query.compactText span := hsame _ h
      have hexpr := outlineExpr_relabel hjoins hsame hinside expr
        (hinside h (by simp [Node.children_operation]))
      have hitems := outlineExprs_relabel hjoins hsame hinside items fun item hitem =>
        hinside h (by simp [Node.children_operation, hitem])
      simp only [Operation.relabel, outlineOperation, hself, hexpr, hitems]
  | output inputs mode outputs span =>
      have hself : other.compactText (r.place span) = query.compactText span := hsame _ h
      have hinputs := outlineExprs_relabel hjoins hsame hinside inputs fun input hinput =>
        hinside h (by simp [Node.children_operation, hinput])
      have houtputs := outlineNames_relabel hsame outputs fun name hname =>
        hinside h (by simp [Node.children_operation, hname])
      simp only [Operation.relabel, outlineOperation, List.length_map, hself, hinputs, houtputs]
  | grouping names span =>
      have hself : other.compactText (r.place span) = query.compactText span := hsame _ h
      have hnames := outlineNames_relabel hsame names fun name hname =>
        hinside h (by simpa [Node.children_operation] using hname)
      simp only [Operation.relabel, outlineOperation, hself, hnames]
  | rename expr target span =>
      have hself : other.compactText (r.place span) = query.compactText span := hsame _ h
      have hexpr := outlineExpr_relabel hjoins hsame hinside expr
        (hinside h (by simp [Node.children_operation]))
      have htarget := outlineName_relabel hsame target
        (hinside h (by simp [Node.children_operation]))
      simp only [Operation.relabel, outlineOperation, hself, hexpr, htarget]
  | compare field op value span =>
      have hself : other.compactText (r.place span) = query.compactText span := hsame _ h
      have hfield := outlineName_relabel hsame field
        (hinside h (by simp [Node.children_operation]))
      have hvalue := outlineExpr_relabel hjoins hsame hinside value
        (hinside h (by simp [Node.children_operation]))
      simp only [Operation.relabel, outlineOperation, hself, hfield, hvalue]
  | bare expr span =>
      have hself : other.compactText (r.place span) = query.compactText span := hsame _ h
      have hexpr := outlineExpr_relabel hjoins hsame hinside expr
        (hinside h (by simp [Node.children_operation]))
      simp only [Operation.relabel, outlineOperation, hself, hexpr]
  | not inner span ih | paren inner span ih =>
      have hself : other.compactText (r.place span) = query.compactText span := hsame _ h
      have hinner := ih (hinside h (by simp [Node.children_operation]))
      simp only [Operation.relabel, outlineOperation, hself, hinner]
  | and lhs rhs ihl ihr | or lhs rhs ihl ihr =>
      have hself := hsame _ h
      rw [Node.span, ← Operation.span_relabel hjoins, Operation.relabel] at hself
      have hlhs := ihl (hinside h (by simp [Node.children_operation]))
      have hrhs := ihr (hinside h (by simp [Node.children_operation]))
      simp only [Operation.relabel, outlineOperation, hself, hlhs, hrhs]

theorem outlineStage_relabel (label : String) (stage : Stage)
    (hspan : other.compactText (r.place stage.span) = query.compactText stage.span)
    (h : ∀ node ∈ stage.nodes, within node) :
    other.outlineStage label (stage.relabel r) = query.outlineStage label stage := by
  have hinner : ∀ q, stage.subquery = some q →
      other.outlineSubquery (q.relabel r) = query.outlineSubquery q := by
    intro q hq
    have hhas := h (.subquery q) (by simp [Stage.nodes, hq])
    have hself : other.compactText (r.place q.span) = query.compactText q.span := hsame _ hhas
    have hopening : other.outlineStage "init_command" (q.opening.relabel r) =
        query.outlineStage "init_command" q.opening := by
      have hfirst : within (.opening q.opening) :=
        hinside hhas (by simp [Node.children_subquery])
      exact outlineStage_relabel "init_command" q.opening (hsame _ hfirst) fun node hnode =>
        hinside hfirst (by rwa [Node.children_opening])
    have hlater : q.later.map (fun s => other.outlineStage "next_command" (s.relabel r)) =
        q.later.map (query.outlineStage "next_command") := by
      refine List.map_congr_left fun s hs => ?_
      have hstage : within (.stage s) := hinside hhas (by simp [Node.children_subquery, hs])
      exact outlineStage_relabel "next_command" s (hsame _ hstage) fun node hnode =>
        hinside hstage (by rwa [Node.children_stage])
    obtain ⟨opening, later, span⟩ := q
    simp only [Subquery.opening, Subquery.later, Subquery.span] at hopening hlater hself
    simp only [Subquery.relabel, relabelStages_eq, outlineSubquery, outlineStages_eq,
      List.map_map, Function.comp_def, hself, hopening, hlater]
  have hcommand : (stage.command.map (·.relabel r)).toList.map other.outlineCommand =
      stage.command.toList.map query.outlineCommand := by
    cases hc : stage.command with
    | none => rfl
    | some c =>
        have hself : other.compactText (r.place c.span) = query.compactText c.span :=
          hsame _ (h (.command c) (by simp [Stage.nodes, hc]))
        simp only [Option.map_some, Option.toList_some, List.map_cons, List.map_nil, outlineCommand,
          outlineLeaf, Command.relabel, hself]
  have hoperations : (stage.operations.map (·.relabel r)).map other.outlineOperation =
      stage.operations.map query.outlineOperation := by
    rw [List.map_map]
    exact List.map_congr_left fun operation hoperation => outlineOperation_relabel hjoins hsame
      hinside operation (h (.operation operation) (by simp [Stage.nodes, hoperation]))
  clear h
  obtain ⟨piped, command, operations, subquery, span⟩ := stage
  simp only [Stage.command, Stage.operations, Stage.subquery, Stage.span] at *
  have hsubquery : (subquery.map (·.relabel r)).toList.map other.outlineSubquery =
      subquery.toList.map query.outlineSubquery := by
    cases subquery with
    | none => rfl
    | some q => simp [hinner q rfl]
  rw [Stage.relabel_mk, outlineStage_mk, outlineStage_mk, hcommand, hoperations, hsubquery, hspan]
termination_by sizeOf stage
decreasing_by
  · exact Stage.sizeOf_inner_lt hq List.mem_cons_self
  · exact Stage.sizeOf_inner_lt hq (List.mem_cons_of_mem _ hs)

-- What the outline tells of an opening stage and of later ones.
theorem outlineOpening_relabel {s : Stage} (h : within (.opening s)) :
    other.outlineStage "init_command" (s.relabel r) = query.outlineStage "init_command" s :=
  outlineStage_relabel hjoins hsame hinside _ s (hsame _ h) fun _ hnode =>
    hinside h (by rwa [Node.children_opening])

theorem outlineLater_relabel {later : List Stage} (h : ∀ s ∈ later, within (.stage s)) :
    other.outlineStages (later.map (·.relabel r)) = query.outlineStages later := by
  rw [outlineStages_eq, outlineStages_eq, List.map_map]
  refine List.map_congr_left fun s hs => ?_
  exact outlineStage_relabel hjoins hsame hinside _ s (hsame _ (h s hs)) fun node hnode =>
    hinside (h s hs) (by rwa [Node.children_stage])

end Query

end SearchPipeline
