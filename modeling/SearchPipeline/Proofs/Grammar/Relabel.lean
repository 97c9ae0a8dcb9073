import SearchPipeline.Proofs.Grammar.Children
import SearchPipeline.Rename.Plan

namespace SearchPipeline

open Grammar

-- New texts for names and new places for spans.
structure Relabel where
  text : Name → String
  place : Span → Span

def Name.relabel (r : Relabel) (name : Name) : Name := ⟨name.use, r.text name, r.place name.span⟩

def FunctionName.relabel (r : Relabel) (function : FunctionName) : FunctionName :=
  ⟨function.text, r.place function.span⟩

def Command.relabel (r : Relabel) (command : Command) : Command :=
  ⟨command.name, command.kind, r.place command.span⟩

def Value.relabel (r : Relabel) : Value → Value
  | .time text span => .time text (r.place span)
  | .string text span => .string text (r.place span)
  | .name n => .name (n.relabel r)
  | .number text span => .number text (r.place span)

mutual

def Expr.relabel (r : Relabel) : Expr → Expr
  | .value value => .value (value.relabel r)
  | .call function args span => .call (function.relabel r) (relabelExprs r args) (r.place span)
  | .paren inner span => .paren (inner.relabel r) (r.place span)
  | .contains inner span => .contains (inner.relabel r) (r.place span)
  | .endsWith inner span => .endsWith (inner.relabel r) (r.place span)
  | .startsWith inner span => .startsWith (inner.relabel r) (r.place span)
  | .wildcard span => .wildcard (r.place span)
  | .path names span => .path (names.map (·.relabel r)) (r.place span)
  | .binary op lhs rhs => .binary op (lhs.relabel r) (rhs.relabel r)

def relabelExprs (r : Relabel) : List Expr → List Expr
  | [] => []
  | first :: rest => first.relabel r :: relabelExprs r rest

end

def Operation.relabel (r : Relabel) : Operation → Operation
  | .like expr pattern span => .like (expr.relabel r) (pattern.relabel r) (r.place span)
  | .within expr items span => .within (expr.relabel r) (items.map (·.relabel r)) (r.place span)
  | .not inner span => .not (inner.relabel r) (r.place span)
  | .output inputs mode outputs span =>
      .output (inputs.map (·.relabel r)) mode (outputs.map (·.relabel r)) (r.place span)
  | .grouping names span => .grouping (names.map (·.relabel r)) (r.place span)
  | .rename expr target span => .rename (expr.relabel r) (target.relabel r) (r.place span)
  | .compare field op value span => .compare (field.relabel r) op (value.relabel r) (r.place span)
  | .bare expr span => .bare (expr.relabel r) (r.place span)
  | .paren inner span => .paren (inner.relabel r) (r.place span)
  | .and lhs rhs => .and (lhs.relabel r) (rhs.relabel r)
  | .or lhs rhs => .or (lhs.relabel r) (rhs.relabel r)

mutual

def Stage.relabel (r : Relabel) : Stage → Stage
  | .mk piped command operations subquery span =>
      .mk piped (command.map (·.relabel r)) (operations.map (·.relabel r))
        (match subquery with
        | some inner => some (Subquery.relabel r inner)
        | none => none) (r.place span)

def Subquery.relabel (r : Relabel) : Subquery → Subquery
  | .mk opening later span =>
      .mk (opening.relabel r) (relabelStages r later) (r.place span)

def relabelStages (r : Relabel) : List Stage → List Stage
  | [] => []
  | first :: rest => first.relabel r :: relabelStages r rest

end

section Lists

variable (r : Relabel)

@[simp] theorem relabelExprs_eq (exprs : List Expr) :
    relabelExprs r exprs = exprs.map (·.relabel r) := by
  induction exprs with
  | nil => simp [relabelExprs]
  | cons first rest ih => simp [relabelExprs, ih]

@[simp] theorem relabelStages_eq (stages : List Stage) :
    relabelStages r stages = stages.map (·.relabel r) := by
  induction stages with
  | nil => simp [relabelStages]
  | cons first rest ih => simp [relabelStages, ih]

theorem Stage.relabel_mk (piped : Bool) (command : Option Command) (operations : List Operation)
    (subquery : Option Subquery) (span : Span) :
    (Stage.mk piped command operations subquery span).relabel r =
      .mk piped (command.map (·.relabel r)) (operations.map (·.relabel r))
        (subquery.map (·.relabel r)) (r.place span) := by
  cases subquery <;> simp [Stage.relabel]

end Lists

namespace Stage

variable (r : Relabel) (stage : Stage)

theorem commandName?_relabel : (stage.relabel r).commandName? = stage.commandName? := by
  obtain ⟨piped, command, operations, subquery, span⟩ := stage
  rw [Stage.relabel_mk]
  cases command <;> rfl

theorem operations_relabel : (stage.relabel r).operations = stage.operations.map (·.relabel r) := by
  obtain ⟨piped, command, operations, subquery, span⟩ := stage
  rw [Stage.relabel_mk]
  rfl

theorem subquery_relabel : (stage.relabel r).subquery = stage.subquery.map (·.relabel r) := by
  obtain ⟨piped, command, operations, subquery, span⟩ := stage
  rw [Stage.relabel_mk]
  rfl

end Stage

-- The places of two spans joined are the place of the spans joined.
def Relabel.Joins (r : Relabel) : Prop :=
  ∀ a b, r.place (a.join b) = (r.place a).join (r.place b)

section Spans

variable {r : Relabel} (hjoins : r.Joins)

theorem Value.span_relabel (r : Relabel) (value : Value) :
    (value.relabel r).span = r.place value.span := by
  cases value <;> rfl

include hjoins

theorem Expr.span_relabel (expr : Expr) : (expr.relabel r).span = r.place expr.span := by
  match expr with
  | .value v =>
      simp only [Expr.relabel, Expr.span]
      exact Value.span_relabel r v
  | .binary op lhs rhs =>
      simp only [Expr.relabel, Expr.span, hjoins _ _, span_relabel lhs, span_relabel rhs]
  | .call _ _ _ | .paren _ _ | .contains _ _ | .endsWith _ _ | .startsWith _ _ | .wildcard _
  | .path _ _ => simp only [Expr.relabel, Expr.span]

theorem Operation.span_relabel (operation : Operation) :
    (operation.relabel r).span = r.place operation.span := by
  induction operation with
  | and lhs rhs ihl ihr | or lhs rhs ihl ihr =>
      simp only [Operation.relabel, Operation.span, hjoins _ _, ihl, ihr]
  | _ => rfl

theorem lookupTable?_relabel (operations : List Operation) :
    lookupTable? (operations.map (·.relabel r)) = (lookupTable? operations).map r.place := by
  cases operations with
  | nil => rfl
  | cons first rest =>
      cases first with
      | output inputs mode outputs span =>
          cases inputs with
          | nil => rfl
          | cons input inputs => simp [lookupTable?, Operation.relabel, Expr.span_relabel hjoins]
      | _ => simp [lookupTable?, Operation.relabel, ← Operation.span_relabel hjoins]

theorem stageTable?_relabel (command : Option String) (operations : List Operation) :
    stageTable? command (operations.map (·.relabel r)) =
      (stageTable? command operations).map r.place := by
  unfold stageTable?
  split
  · exact lookupTable?_relabel hjoins operations
  · rfl

end Spans

-- One relabelling after another.
def Relabel.andThen (r r' : Relabel) : Relabel :=
  ⟨fun name => r'.text (name.relabel r), fun span => r'.place (r.place span)⟩

section Composition

variable (r r' : Relabel)

@[simp] theorem Relabel.place_andThen (span : Span) :
    (r.andThen r').place span = r'.place (r.place span) := rfl

theorem Value.relabel_relabel (value : Value) :
    (value.relabel r).relabel r' = value.relabel (r.andThen r') := by
  cases value <;> rfl

theorem names_relabel_relabel (names : List Name) :
    (names.map (·.relabel r)).map (·.relabel r') = names.map (·.relabel (r.andThen r')) := by
  rw [List.map_map]
  rfl

theorem Expr.relabel_relabel :
    ∀ expr : Expr, (expr.relabel r).relabel r' = expr.relabel (r.andThen r')
  | .value v => by simp only [Expr.relabel, Value.relabel_relabel]
  | .call function args span => by
      have hargs : args.map (fun arg => (arg.relabel r).relabel r') =
          args.map (·.relabel (r.andThen r')) :=
        List.map_congr_left fun arg _ => Expr.relabel_relabel arg
      simp [Expr.relabel, FunctionName.relabel, ← hargs]
  | .paren inner span | .contains inner span | .endsWith inner span | .startsWith inner span => by
      simp only [Expr.relabel, Expr.relabel_relabel inner]
      rfl
  | .wildcard span => by
      simp only [Expr.relabel]
      rfl
  | .path names span => by
      simp only [Expr.relabel, names_relabel_relabel]
      rfl
  | .binary op lhs rhs => by
      simp only [Expr.relabel, Expr.relabel_relabel lhs, Expr.relabel_relabel rhs]

theorem exprs_relabel_relabel (exprs : List Expr) :
    (exprs.map (·.relabel r)).map (·.relabel r') = exprs.map (·.relabel (r.andThen r')) := by
  rw [List.map_map]
  exact List.map_congr_left fun expr _ => expr.relabel_relabel r r'

theorem Operation.relabel_relabel (operation : Operation) :
    (operation.relabel r).relabel r' = operation.relabel (r.andThen r') := by
  induction operation with
  | not inner span ih | paren inner span ih =>
      simp only [Operation.relabel, ih]
      rfl
  | and lhs rhs ihl ihr | or lhs rhs ihl ihr => simp only [Operation.relabel, ihl, ihr]
  | _ =>
      simp only [Operation.relabel, Expr.relabel_relabel, Value.relabel_relabel,
        exprs_relabel_relabel, names_relabel_relabel]
      rfl

theorem Stage.relabel_relabel :
    ∀ stage : Stage, (stage.relabel r).relabel r' = stage.relabel (r.andThen r')
  | .mk piped command operations subquery span => by
      have hcommand : (command.map (·.relabel r)).map (·.relabel r') =
          command.map (·.relabel (r.andThen r')) := by cases command <;> rfl
      have hoperations : (operations.map (·.relabel r)).map (·.relabel r') =
          operations.map (·.relabel (r.andThen r')) := by
        rw [List.map_map]
        exact List.map_congr_left fun operation _ => operation.relabel_relabel r r'
      have hsubquery : (subquery.map (·.relabel r)).map (·.relabel r') =
          subquery.map (·.relabel (r.andThen r')) := by
        match subquery with
        | none => rfl
        | some (.mk opening later inside) =>
            have hlater : later.map (fun s => (s.relabel r).relabel r') =
                later.map (·.relabel (r.andThen r')) :=
              List.map_congr_left fun s _ => Stage.relabel_relabel s
            simp [Subquery.relabel, Stage.relabel_relabel opening, ← hlater]
      simp only [Stage.relabel_mk, hcommand, hoperations, hsubquery]
      rfl

end Composition

def Pipeline.relabel (r : Relabel) (pipeline : Pipeline) : Pipeline :=
  ⟨pipeline.opening.relabel r, pipeline.later.map (·.relabel r), r.place pipeline.span⟩

section Congruence

variable {r r' : Relabel} {pipeline : Pipeline} (htext : r.text = r'.text)
  (hplaces : ∀ node, pipeline.Has node → r.place node.span = r'.place node.span)

include htext hplaces

theorem Name.relabel_congr (name : Name) (h : pipeline.Has (.name name)) :
    name.relabel r = name.relabel r' := by
  have hself : r.place name.span = r'.place name.span := hplaces _ h
  simp [Name.relabel, htext, hself]

theorem names_relabel_congr {names : List Name} (h : ∀ name ∈ names, pipeline.Has (.name name)) :
    names.map (·.relabel r) = names.map (·.relabel r') :=
  List.map_congr_left fun name hname => Name.relabel_congr htext hplaces name (h name hname)

theorem Value.relabel_congr (value : Value) (h : pipeline.Has (.value value)) :
    value.relabel r = value.relabel r' := by
  have hself : r.place value.span = r'.place value.span := hplaces _ h
  cases value with
  | name n =>
      have hname := Name.relabel_congr htext hplaces n (h.inside (by simp [Node.children_value]))
      rw [Value.relabel, Value.relabel, hname]
  | time text span | string text span | number text span =>
      rw [Value.span] at hself
      rw [Value.relabel, Value.relabel, hself]

theorem Expr.relabel_congr :
    ∀ expr : Expr, pipeline.Has (.expr expr) → expr.relabel r = expr.relabel r'
  | .value v, h => by
      have hvalue := Value.relabel_congr htext hplaces v (h.inside (by simp [Node.children_expr]))
      simp [Expr.relabel, hvalue]
  | .call function args span, h => by
      have hself : r.place span = r'.place span := hplaces _ h
      have hfunction : r.place function.span = r'.place function.span :=
        hplaces (.function function) (h.inside (by simp [Node.children_expr]))
      have hargs : args.map (·.relabel r) = args.map (·.relabel r') :=
        List.map_congr_left fun arg harg => Expr.relabel_congr arg
          (h.inside (by simp [Node.children_expr, harg]))
      simp [Expr.relabel, FunctionName.relabel, hself, hfunction, hargs]
  | .paren inner span, h | .contains inner span, h | .endsWith inner span, h
  | .startsWith inner span, h => by
      have hself : r.place span = r'.place span := hplaces _ h
      have hinner := Expr.relabel_congr inner (h.inside (by simp [Node.children_expr]))
      simp [Expr.relabel, hself, hinner]
  | .wildcard span, h => by
      have hself : r.place span = r'.place span := hplaces _ h
      simp [Expr.relabel, hself]
  | .path names span, h => by
      have hself : r.place span = r'.place span := hplaces _ h
      have hnames := names_relabel_congr htext hplaces fun name (hname : name ∈ names) =>
        h.inside (by simpa [Node.children_expr] using hname)
      simp [Expr.relabel, hself, hnames]
  | .binary op lhs rhs, h => by
      have hlhs := Expr.relabel_congr lhs (h.inside (by simp [Node.children_expr]))
      have hrhs := Expr.relabel_congr rhs (h.inside (by simp [Node.children_expr]))
      simp [Expr.relabel, hlhs, hrhs]

theorem exprs_relabel_congr {exprs : List Expr} (h : ∀ expr ∈ exprs, pipeline.Has (.expr expr)) :
    exprs.map (·.relabel r) = exprs.map (·.relabel r') :=
  List.map_congr_left fun expr hexpr => Expr.relabel_congr htext hplaces expr (h expr hexpr)

theorem Operation.relabel_congr (operation : Operation)
    (h : pipeline.Has (.operation operation)) :
    operation.relabel r = operation.relabel r' := by
  induction operation with
  | like expr pattern span =>
      have hself : r.place span = r'.place span := hplaces _ h
      have hexpr := Expr.relabel_congr htext hplaces expr
        (h.inside (by simp [Node.children_operation]))
      have hpattern := Value.relabel_congr htext hplaces pattern
        (h.inside (by simp [Node.children_operation]))
      simp [Operation.relabel, hself, hexpr, hpattern]
  | within expr items span =>
      have hself : r.place span = r'.place span := hplaces _ h
      have hexpr := Expr.relabel_congr htext hplaces expr
        (h.inside (by simp [Node.children_operation]))
      have hitems := exprs_relabel_congr htext hplaces fun item (hitem : item ∈ items) =>
        h.inside (by simp [Node.children_operation, hitem])
      simp [Operation.relabel, hself, hexpr, hitems]
  | output inputs mode outputs span =>
      have hself : r.place span = r'.place span := hplaces _ h
      have hinputs := exprs_relabel_congr htext hplaces fun input (hinput : input ∈ inputs) =>
        h.inside (by simp [Node.children_operation, hinput])
      have houtputs := names_relabel_congr htext hplaces fun name (hname : name ∈ outputs) =>
        h.inside (by simp [Node.children_operation, hname])
      simp [Operation.relabel, hself, hinputs, houtputs]
  | grouping names span =>
      have hself : r.place span = r'.place span := hplaces _ h
      have hnames := names_relabel_congr htext hplaces fun name (hname : name ∈ names) =>
        h.inside (by simpa [Node.children_operation] using hname)
      simp [Operation.relabel, hself, hnames]
  | rename expr target span =>
      have hself : r.place span = r'.place span := hplaces _ h
      have hexpr := Expr.relabel_congr htext hplaces expr
        (h.inside (by simp [Node.children_operation]))
      have htarget := Name.relabel_congr htext hplaces target
        (h.inside (by simp [Node.children_operation]))
      simp [Operation.relabel, hself, hexpr, htarget]
  | compare field op value span =>
      have hself : r.place span = r'.place span := hplaces _ h
      have hfield := Name.relabel_congr htext hplaces field
        (h.inside (by simp [Node.children_operation]))
      have hvalue := Expr.relabel_congr htext hplaces value
        (h.inside (by simp [Node.children_operation]))
      simp [Operation.relabel, hself, hfield, hvalue]
  | bare expr span =>
      have hself : r.place span = r'.place span := hplaces _ h
      have hexpr := Expr.relabel_congr htext hplaces expr
        (h.inside (by simp [Node.children_operation]))
      simp [Operation.relabel, hself, hexpr]
  | not inner span ih | paren inner span ih =>
      have hself : r.place span = r'.place span := hplaces _ h
      have hinner := ih (h.inside (by simp [Node.children_operation]))
      simp [Operation.relabel, hself, hinner]
  | and lhs rhs ihl ihr | or lhs rhs ihl ihr =>
      have hlhs := ihl (h.inside (by simp [Node.children_operation]))
      have hrhs := ihr (h.inside (by simp [Node.children_operation]))
      simp [Operation.relabel, hlhs, hrhs]

theorem Stage.relabel_congr (stage : Stage) (hspan : r.place stage.span = r'.place stage.span)
    (h : ∀ node ∈ stage.nodes, pipeline.Has node) : stage.relabel r = stage.relabel r' := by
  have hinner : ∀ q, stage.subquery = some q → q.relabel r = q.relabel r' := by
    intro q hq
    have hhas := h (.subquery q) (by simp [Stage.nodes, hq])
    have hself : r.place q.span = r'.place q.span := hplaces _ hhas
    have hopening : q.opening.relabel r = q.opening.relabel r' := by
      have hfirst : pipeline.Has (.opening q.opening) :=
        hhas.inside (by simp [Node.children_subquery])
      exact Stage.relabel_congr q.opening (hplaces _ hfirst) fun node hnode =>
        hfirst.inside (by rwa [Node.children_opening])
    have hlater : q.later.map (·.relabel r) = q.later.map (·.relabel r') := by
      refine List.map_congr_left fun s hs => ?_
      have hstage : pipeline.Has (.stage s) := hhas.inside (by simp [Node.children_subquery, hs])
      exact Stage.relabel_congr s (hplaces _ hstage) fun node hnode =>
        hstage.inside (by rwa [Node.children_stage])
    obtain ⟨opening, later, span⟩ := q
    simp only [Subquery.opening, Subquery.later, Subquery.span] at hopening hlater hself
    simp [Subquery.relabel, hopening, hlater, hself]
  have hcommand : stage.command.map (·.relabel r) = stage.command.map (·.relabel r') := by
    cases hc : stage.command with
    | none => rfl
    | some c =>
        have hself : r.place c.span = r'.place c.span :=
          hplaces _ (h (.command c) (by simp [Stage.nodes, hc]))
        simp [Command.relabel, hself]
  have hoperations : stage.operations.map (·.relabel r) = stage.operations.map (·.relabel r') :=
    List.map_congr_left fun operation hoperation => Operation.relabel_congr htext hplaces operation
      (h (.operation operation) (by simp [Stage.nodes, hoperation]))
  clear h
  obtain ⟨piped, command, operations, subquery, span⟩ := stage
  simp only [Stage.command, Stage.operations, Stage.subquery, Stage.span] at *
  rw [Stage.relabel_mk, Stage.relabel_mk, hcommand, hoperations, hspan]
  congr 1
  cases subquery with
  | none => rfl
  | some q => simp [hinner q rfl]
termination_by sizeOf stage
decreasing_by
  · exact Stage.sizeOf_inner_lt hq List.mem_cons_self
  · exact Stage.sizeOf_inner_lt hq (List.mem_cons_of_mem _ hs)

theorem Pipeline.relabel_congr :
    pipeline.opening.relabel r = pipeline.opening.relabel r' ∧
      pipeline.later.map (·.relabel r) = pipeline.later.map (·.relabel r') := by
  have hopening := Query.has_opening pipeline
  constructor
  · exact Stage.relabel_congr htext hplaces _ (hplaces _ hopening) fun node hnode =>
      hopening.inside (by rwa [Node.children_opening])
  · refine List.map_congr_left fun s hs => ?_
    have hstage := Query.has_later hs
    exact Stage.relabel_congr htext hplaces s (hplaces _ hstage) fun node hnode =>
      hstage.inside (by rwa [Node.children_stage])

end Congruence

end SearchPipeline
