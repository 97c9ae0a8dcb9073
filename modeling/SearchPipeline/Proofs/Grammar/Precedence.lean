import SearchPipeline.Proofs.Grammar.Relabel
import SearchPipeline.Proofs.Grammar.Stages

namespace SearchPipeline

open Grammar

namespace Expr

-- The operator at the root of an expression.
def operator? : Expr → Option ArithOp
  | .binary op _ _ => some op
  | _ => none

-- The strength at the root of an expression: of its operator, or of the star at the end of `term*`.
def strength? : Expr → Option Nat
  | .binary op _ _ => some op.strength
  | .startsWith _ _ => some startsWithStrength
  | _ => none

theorem strength?_of_operator? {e : Expr} {op : ArithOp} (h : e.operator? = some op) :
    e.strength? = some op.strength := by
  cases e with
  | binary op' lhs rhs =>
      cases h
      rfl
  | _ => cases h

-- Behind such an expression, an operator would belong to the term of its last star.
def endsInStar : Expr → Bool
  | .endsWith _ _ => true
  | .binary _ _ rhs => rhs.endsInStar
  | _ => false

end Expr

namespace Operation

-- The connective at the root of an operation.
def connective? : Operation → Option Connective
  | .and _ _ => some .and
  | .or _ _ => some .or
  | _ => none

-- Behind such an operation, a connective would belong to the operand of its last NOT.
def endsInNot : Operation → Bool
  | .not _ _ => true
  | .and _ rhs | .or _ rhs => rhs.endsInNot
  | _ => false

end Operation

theorem Pipeline.Has.held {pipeline : Pipeline} {node : Node} (h : pipeline.Has node) :
    ∃ root ∈ (rootParts pipeline).filterMap Part.node?, root.Holds node := by
  induction h with
  | stage hmem => exact ⟨_, hmem, .self⟩
  | inside _ hchild ih =>
      obtain ⟨root, hroot, hholds⟩ := ih
      exact ⟨root, hroot, .inside hholds hchild⟩

namespace Grammar

variable {tape : Tape}

-- The operands of an operator or a connective have no root that binds too weakly to stand there
-- without parentheses.
def Node.Graded : Node → Prop
  | .expr (.binary op lhs rhs) =>
      (∀ inner, lhs.operator? = some inner → op.strength < inner.rightStrength) ∧
        ∀ inner, rhs.operator? = some inner → op.rightStrength ≤ inner.strength
  | .operation (.and lhs rhs) => lhs.connective? ≠ some .or ∧ rhs.connective? = none
  | .operation (.or _ rhs) => rhs.connective? ≠ some .or
  | _ => True

-- No operator stands under a stronger one without parentheses, `^` groups to the right, and every
-- other operator groups to the left.
theorem Node.Graded.groups {op : ArithOp} {lhs rhs : Expr}
    (h : (Node.expr (.binary op lhs rhs)).Graded) :
    (∀ inner, lhs.operator? = some inner →
      op.strength ≤ inner.strength ∧ (op = .pow → inner.strength ≠ op.strength)) ∧
    ∀ inner, rhs.operator? = some inner →
      op.strength ≤ inner.strength ∧ (op ≠ .pow → inner.strength ≠ op.strength) := by
  refine ⟨fun inner hinner => ?_, fun inner hinner => ?_⟩
  · have := h.1 inner hinner
    cases op <;> cases inner <;> simp_all [ArithOp.strength, ArithOp.rightStrength]
  · have := h.2 inner hinner
    cases op <;> cases inner <;> simp_all [ArithOp.strength, ArithOp.rightStrength]

-- The term next to a star binds no more weakly than the star, and the star that marks the end of a
-- term has no blank before it. The star of a product has blanks on both sides or on neither, and on
-- the left of an operator stands no `*term` that the operator would belong to.
def Node.Starred (tape : Tape) : Node → Prop
  | .expr (.contains inner span) =>
      (∀ strength, inner.strength? = some strength → starStrength ≤ strength) ∧ tape.MarksEnd span
  | .expr (.endsWith inner _) =>
      ∀ strength, inner.strength? = some strength → starStrength ≤ strength
  | .expr (.startsWith inner span) =>
      (∀ op, inner.operator? = some op → startsWithStrength < op.rightStrength) ∧ tape.MarksEnd span
  | .expr (.binary op lhs rhs) =>
      (lhs.endsInStar = true → op.strength < starStrength) ∧
        (∀ strength, rhs.strength? = some strength → op.rightStrength ≤ strength) ∧
        (op = .mult → ∃ pos, tape.kind pos = .star ∧ tape.index (pos + 1) = rhs.span.start ∧
          tape.allowsProduct pos = true)
  | _ => True

-- The operand of a NOT takes in the connectives behind it.
def Node.Negated : Node → Prop
  | .operation (.and lhs _) | .operation (.or lhs _) => lhs.endsInNot = false
  | _ => True

-- What the grammar asks of operators, stars and connectives besides the order of their parts.
structure Node.Regular (tape : Tape) (node : Node) : Prop where
  graded : node.Graded
  starred : node.Starred tape
  negated : node.Negated

-- What holds of a node and of all nodes inside it, at any depth.
def Node.Within (P : Node → Prop) (node : Node) : Prop := ∀ other, node.Holds other → P other

def Node.GradedWithin (node : Node) : Prop := ∀ other, node.Holds other → other.Graded

theorem Node.GradedWithin.child {node child : Node} (h : node.GradedWithin)
    (hchild : child ∈ node.children) : child.GradedWithin :=
  fun other hother => h other (.of_child hchild hother)

-- A node that is neither an expression nor an operation.
def Node.IsPlain : Node → Prop
  | .expr _ | .operation _ => False
  | _ => True

theorem Node.IsPlain.regular {node : Node} (h : node.IsPlain) : node.Regular tape := by
  cases node with
  | expr _ | operation _ => exact h.elim
  | _ => exact ⟨trivial, trivial, trivial⟩

theorem expr_mem_children {e inner : Expr} (h : inner ∈ e.children) :
    Node.expr inner ∈ (Node.expr e).children := by
  rw [Node.children_expr]
  cases e with
  | call function args span => exact List.mem_cons_of_mem _ (List.mem_map_of_mem h)
  | value _ | wildcard _ | path _ _ => cases h
  | paren inner _ | contains inner _ | endsWith inner _ | startsWith inner _ | binary _ _ _ =>
      exact List.mem_map_of_mem h

theorem operation_mem_children {o inner : Operation} (h : inner ∈ o.children) :
    Node.operation inner ∈ (Node.operation o).children := by
  cases o with
  | not inner _ | paren inner _ | and _ _ => exact List.mem_map_of_mem h
  | or _ _ => exact List.mem_map_of_mem h
  | _ => cases h

section Within

variable {P : Node → Prop}

theorem Node.Within.intro {node : Node} (h : P node)
    (hchildren : ∀ child ∈ node.children, child.Within P) : node.Within P := by
  intro other hother
  rcases hother.self_or_child with rfl | ⟨child, hchild, hinner⟩
  · exact h
  · exact hchildren child hchild other hinner

variable (hplain : ∀ node : Node, node.IsPlain → P node)

include hplain

theorem name_within (n : Name) : (Node.name n).Within P :=
  .intro (hplain _ trivial) (by simp [Node.children, Node.parts, Part.node?])

theorem value_within (v : Value) : (Node.value v).Within P := by
  refine .intro (hplain _ trivial) fun child hchild => ?_
  cases v <;> simp [Node.children_value] at hchild
  exact hchild ▸ name_within hplain _

theorem names_within {names : List Name} {child : Node} (h : child ∈ names.map .name) :
    child.Within P := by
  obtain ⟨n, -, rfl⟩ := List.mem_map.1 h
  exact name_within hplain n

omit hplain in
theorem exprs_within {exprs : List Expr} {child : Node}
    (h : ∀ e ∈ exprs, (Node.expr e).Within P) (hchild : child ∈ exprs.map Node.expr) :
    child.Within P := by
  obtain ⟨e, he, rfl⟩ := List.mem_map.1 hchild
  exact h e he

-- What holds of the root of an expression and of the expressions inside it holds of all its nodes.
theorem expr_within {e : Expr} (h : P (.expr e))
    (hchildren : ∀ inner ∈ e.children, (Node.expr inner).Within P) : (Node.expr e).Within P := by
  refine .intro h fun child hchild => ?_
  rw [Node.children_expr] at hchild
  cases e with
  | value v => exact List.mem_singleton.1 hchild ▸ value_within hplain v
  | call f args span =>
      rcases List.mem_cons.1 hchild with rfl | hargs
      · exact .intro (hplain _ trivial) (by simp [Node.children, Node.parts, Part.node?])
      · exact exprs_within hchildren hargs
  | paren inner span | contains inner span | endsWith inner span | startsWith inner span =>
      exact List.mem_singleton.1 hchild ▸ hchildren inner (by simp [Expr.children])
  | wildcard span => cases hchild
  | path names span => exact names_within hplain hchild
  | binary op lhs rhs => exact exprs_within hchildren hchild

theorem operation_within {o : Operation} (h : P (.operation o))
    (hexprs : ∀ e ∈ o.expressions, (Node.expr e).Within P)
    (hchildren : ∀ inner ∈ o.children, (Node.operation inner).Within P) :
    (Node.operation o).Within P := by
  refine .intro h fun child hchild => ?_
  rw [Node.children_operation] at hchild
  cases o with
  | like e pattern span =>
      simp only [List.mem_cons, List.not_mem_nil, or_false] at hchild
      rcases hchild with rfl | rfl
      · exact hexprs e (by simp [Operation.expressions])
      · exact value_within hplain pattern
  | within e items span => exact exprs_within hexprs hchild
  | output inputs mode outputs span =>
      rcases List.mem_append.1 hchild with hinputs | houtputs
      · exact exprs_within hexprs hinputs
      · exact names_within hplain houtputs
  | grouping names span => exact names_within hplain hchild
  | rename e target span =>
      simp only [List.mem_cons, List.not_mem_nil, or_false] at hchild
      rcases hchild with rfl | rfl
      · exact hexprs e (by simp [Operation.expressions])
      · exact name_within hplain target
  | compare field op e span =>
      simp only [List.mem_cons, List.not_mem_nil, or_false] at hchild
      rcases hchild with rfl | rfl
      · exact name_within hplain field
      · exact hexprs e (by simp [Operation.expressions])
  | bare e span => exact exprs_within hexprs hchild
  | not inner span | paren inner span =>
      exact List.mem_singleton.1 hchild ▸ hchildren inner (by simp [Operation.children])
  | and lhs rhs | or lhs rhs =>
      simp only [List.mem_cons, List.not_mem_nil, or_false] at hchild
      rcases hchild with rfl | rfl
      · exact hchildren lhs (by simp [Operation.children])
      · exact hchildren rhs (by simp [Operation.children])

end Within

theorem Node.IsPlain.graded (node : Node) (h : node.IsPlain) : node.Graded := by
  cases node with
  | expr _ | operation _ => exact h.elim
  | _ => trivial

theorem expr_gradedWithin {e : Expr} (h : (Node.expr e).Graded)
    (hchildren : ∀ inner ∈ e.children, (Node.expr inner).GradedWithin) :
    (Node.expr e).GradedWithin := expr_within Node.IsPlain.graded h hchildren

theorem operation_gradedWithin {o : Operation} (h : (Node.operation o).Graded)
    (hexprs : ∀ e ∈ o.expressions, (Node.expr e).GradedWithin)
    (hchildren : ∀ inner ∈ o.children, (Node.operation inner).GradedWithin) :
    (Node.operation o).GradedWithin := operation_within Node.IsPlain.graded h hexprs hchildren

-- What is said of an expression that the rules read with a strength. Nothing at the root binds more
-- weakly, and nothing that binds so strongly was left out behind it, nor behind its last star.
structure TakenExpr (tape : Tape) (least : Nat) (e : Expr) (stop : Nat) : Prop where
  within : (Node.expr e).Within (Node.Regular tape)
  root : ∀ strength, e.strength? = some strength → least ≤ strength
  blocked : Blocked tape least stop
  reach : e.endsInStar = true → Blocked tape starStrength stop

structure TakenOperation (tape : Tape) (least : Nat) (o : Operation) (stop : Nat) : Prop where
  within : (Node.operation o).Within (Node.Regular tape)
  root : ∀ connective, o.connective? = some connective → least ≤ connective.strength
  closed : Closed tape least stop
  reach : o.endsInNot = true → Closed tape notStrength stop

def Calls.regular (tape : Tape) : Calls where
  expression least _ e stop := TakenExpr tape least e stop
  operation least _ o stop := TakenOperation tape least o stop
  subquery _ q _ := (Node.subquery q).Within (Node.Regular tape)

-- An operator that has an operand on its right is not one of those that have none.
theorem Blocked.lt_of_yields {least pos stop : Nat} {op : ArithOp} {rhs : Expr}
    (h : Blocked tape least pos) (hop : ArithOp.ofKind? (tape.kind pos) = some op)
    (hproduct : op = .mult → tape.allowsProduct pos = true)
    (hyields : Yields tape (pos + 1) (fun level => level.expression op.rightStrength) rhs stop) :
    op.strength < least := by
  by_contra hge
  obtain ⟨notes, hsettles⟩ := hyields
  obtain ⟨at', notes', hstuck⟩ := h.operator op hop (Nat.le_of_not_lt hge) hproduct
  cases (hsettles.unique hstuck).1

-- The root of an operand is regular, and it has no strength.
theorem operandRoot_regular {e : Expr} {stop : Nat}
    (h : (Calls.regular tape).OperandRoot tape e stop) :
    (Node.expr e).Regular tape ∧ e.strength? = none ∧
      (e.endsInStar = true → Blocked tape starStrength stop) := by
  cases e with
  | contains inner span =>
      obtain ⟨⟨pos, mid, hinner⟩, hmarks⟩ := h
      exact ⟨⟨trivial, ⟨hinner.root, hmarks⟩, trivial⟩, rfl, nofun⟩
  | endsWith inner span =>
      obtain ⟨pos, hinner⟩ := h
      exact ⟨⟨trivial, hinner.root, trivial⟩, rfl, fun _ => hinner.blocked⟩
  | startsWith inner span | binary op lhs rhs => exact h.elim
  | _ => exact ⟨⟨trivial, trivial, trivial⟩, rfl, nofun⟩

theorem climbs_regular (hot : tape.Orderly) {least stop : Nat} {e : Expr}
    (h : (Calls.regular tape).Climbs tape least e stop) :
    (Node.expr e).Within (Node.Regular tape) ∧
      (∀ strength, e.strength? = some strength → least ≤ strength) ∧
      (∀ op, e.operator? = some op → Blocked tape op.rightStrength stop) ∧
      (e.endsInStar = true → Blocked tape starStrength stop) := by
  induction h with
  | @operand e stop hoperand =>
      obtain ⟨hchildren, hroot⟩ := hoperand
      obtain ⟨hregular, hnone, hreach⟩ := operandRoot_regular hroot
      refine ⟨expr_within (fun _ => Node.IsPlain.regular) hregular fun inner hinner => ?_,
        by simp [hnone], fun op hop => ?_, hreach⟩
      · obtain ⟨least, pos, stop, htaken⟩ := hchildren inner hinner
        exact htaken.within
      · rw [Expr.strength?_of_operator? hop] at hnone
        cases hnone
  | @binary op lhs rhs mid stop _ hop hleast hproduct hrhs hyields ih =>
      obtain ⟨hlhs, -, hblocked, hreach⟩ := ih
      have hright := (hyields.derives hot).fits.span
      have hgraded : (Node.expr (.binary op lhs rhs)).Graded :=
        ⟨fun inner hinner => (hblocked inner hinner).lt_of_yields hop hproduct hyields,
          fun inner hinner => hrhs.root _ (Expr.strength?_of_operator? hinner)⟩
      have hstarred : (Node.expr (.binary op lhs rhs)).Starred tape := by
        refine ⟨fun hends => (hreach hends).lt_of_yields hop hproduct hyields, hrhs.root, ?_⟩
        rintro rfl
        exact ⟨mid, ArithOp.ofKind?_eq_some hop, congrArg Span.start hright.symm, hproduct rfl⟩
      refine ⟨expr_within (fun _ => Node.IsPlain.regular) ⟨hgraded, hstarred, trivial⟩ ?_, ?_, ?_,
        hrhs.reach⟩
      · simpa [Expr.children] using ⟨hlhs, hrhs.within⟩
      · rintro _ ⟨⟩
        exact hleast
      · rintro _ ⟨⟩
        exact hrhs.blocked
  | @startsWith lhs mid _ hstar hleft hleast ih =>
      obtain ⟨hlhs, -, hblocked, -⟩ := ih
      have hstarred : (Node.expr (.startsWith lhs ⟨lhs.span.start, tape.index mid + 1⟩)).Starred tape :=
        ⟨fun op hop => (hblocked op hop).mark hstar hleft, mid, hstar, hleft, rfl⟩
      refine ⟨expr_within (fun _ => Node.IsPlain.regular) ⟨trivial, hstarred, trivial⟩
        (by simpa [Expr.children] using hlhs), ?_, ?_, ?_⟩
      · rintro _ ⟨⟩
        exact hleast
      · rintro _ ⟨⟩
      · rintro ⟨⟩

-- The root of a simple operation is regular, and it is no connective.
theorem simpleRoot_regular {o : Operation} {stop : Nat}
    (h : (Calls.regular tape).SimpleRoot o stop) :
    (Node.operation o).Regular tape ∧ o.connective? = none ∧
      (o.endsInNot = true → Closed tape notStrength stop) := by
  cases o with
  | not inner span =>
      obtain ⟨pos, hinner⟩ := h
      exact ⟨⟨trivial, trivial, trivial⟩, rfl, fun _ => hinner.closed⟩
  | and lhs rhs | or lhs rhs => exact h.elim
  | _ => exact ⟨⟨trivial, trivial, trivial⟩, rfl, nofun⟩

theorem joins_regular {least stop : Nat} {o : Operation}
    (h : (Calls.regular tape).Joins tape least o stop) :
    (Node.operation o).Within (Node.Regular tape) ∧
      (∀ connective, o.connective? = some connective →
        least ≤ connective.strength ∧ Closed tape (connective.strength + 1) stop) ∧
      (o.endsInNot = true → Closed tape notStrength stop) := by
  induction h with
  | @simple o stop hsimple =>
      obtain ⟨hexprs, hchildren, hroot⟩ := hsimple
      obtain ⟨hregular, hnone, hreach⟩ := simpleRoot_regular hroot
      refine ⟨operation_within (fun _ => Node.IsPlain.regular) hregular (fun e he => ?_)
        fun inner hinner => ?_, by simp [hnone], hreach⟩
      · obtain ⟨least, pos, stop, htaken⟩ := hexprs e he
        exact htaken.within
      · obtain ⟨least, pos, stop, htaken⟩ := hchildren inner hinner
        exact htaken.within
  | @join connective lhs rhs mid stop _ hconnective hleast hrhs ih =>
      obtain ⟨hlhs, hroot, hreach⟩ := ih
      -- a NOT at the end of the left operand would have taken in the connective
      have hends : lhs.endsInNot = false := by
        cases hnot : lhs.endsInNot with
        | false => rfl
        | true =>
            have hclosed := hreach hnot connective hconnective
            cases connective <;> simp [Connective.strength, notStrength] at hclosed
      have hgraded : (Node.operation (connective.join lhs rhs)).Graded := by
        cases connective with
        | and =>
            refine ⟨fun hor => ?_, ?_⟩
            · -- an OR on the left would have ended before an AND
              have := (hroot .or hor).2 .and hconnective
              simp [Connective.strength] at this
            · cases hinner : rhs.connective? with
              | none => rfl
              | some inner =>
                  have := hrhs.root inner hinner
                  cases inner <;> simp [Connective.strength] at this
        | or =>
            intro hor
            have := hrhs.root .or hor
            simp [Connective.strength] at this
      cases connective with
      | and | or =>
          refine ⟨operation_within (fun _ => Node.IsPlain.regular) ⟨hgraded, trivial, hends⟩
            (by simp [Connective.join, Operation.expressions]) ?_, ?_, hrhs.reach⟩
          · simpa [Connective.join, Operation.children] using ⟨hlhs, hrhs.within⟩
          · rintro _ ⟨⟩
            exact ⟨hleast, hrhs.closed⟩

-- What a stage holds is regular, in whichever place the stage stands.
theorem isStage_regular {s : Stage} (h : (Calls.regular tape).IsStage s) :
    (Node.opening s).Within (Node.Regular tape) ∧ (Node.stage s).Within (Node.Regular tape) := by
  have hbody : ∀ child ∈ s.nodes, child.Within (Node.Regular tape) := by
    intro child hchild
    simp only [Stage.nodes, List.mem_append, List.mem_map, Option.mem_toList] at hchild
    rcases hchild with (⟨c, -, rfl⟩ | ⟨o, ho, rfl⟩) | ⟨q, hq, rfl⟩
    · exact .intro (Node.IsPlain.regular trivial) (by simp [Node.children, Node.parts, Part.node?])
    · obtain ⟨least, pos, stop, htaken⟩ := h.1 o ho
      exact htaken.within
    · obtain ⟨pos, stop, hregular⟩ := h.2 q hq
      exact hregular
  exact ⟨.intro (Node.IsPlain.regular trivial) (by rwa [Node.children_opening]),
    .intro (Node.IsPlain.regular trivial) (by rwa [Node.children_stage])⟩

theorem isSubquery_regular {q : Subquery} (h : (Calls.regular tape).IsSubquery q) :
    (Node.subquery q).Within (Node.Regular tape) := by
  refine .intro (Node.IsPlain.regular trivial) fun child hchild => ?_
  rw [Node.children_subquery, List.mem_cons, List.mem_map] at hchild
  rcases hchild with rfl | ⟨s, hs, rfl⟩
  · exact (isStage_regular h.1).1
  · exact (isStage_regular (h.2 s hs)).2

theorem Calls.regular_sound (hot : tape.Orderly) : (Calls.regular tape).Sound tape where
  expression _ _ _ _ hclimbs hblocked :=
    have h := climbs_regular hot hclimbs
    ⟨h.1, h.2.1, hblocked, h.2.2.2⟩
  operation _ _ _ _ hjoins hclosed :=
    have h := joins_regular hjoins
    ⟨h.1, fun connective hconnective => (h.2.1 connective hconnective).1, hclosed, h.2.2⟩
  subquery _ _ _ hsubquery := isSubquery_regular hsubquery

end Grammar

namespace Query

theorem regular_of_parse {source : String} {query : Query} (h : Query.parse source = .ok query)
    {node : Node} (hnode : query.pipeline.Has node) : node.Regular query.tape := by
  obtain ⟨rfl, -, hpipeline⟩ := parse_eq_ok h
  have hot : query.tape.Orderly := Tape.ofTokens_orderly query.source query.tokens
  have hstages := pipelineWith_isStage (Calls.regular_sound hot) hpipeline
  obtain ⟨root, hroot, hholds⟩ := hnode.held
  have hregular : root.Within (Node.Regular query.tape) := by
    rw [filterMap_rootParts, List.mem_cons, List.mem_map] at hroot
    rcases hroot with rfl | ⟨s, hs, rfl⟩
    · exact (isStage_regular (hstages _ List.mem_cons_self)).1
    · exact (isStage_regular (hstages s (List.mem_cons_of_mem _ hs))).2
  exact hregular node hholds

-- The tree of a query that is read derives its tokens in the grammar: the root spells every
-- significant token, every node spells those of its own span, and operators, stars and connectives
-- have operands that can stand there without parentheses.
theorem parse_derives (source : String) (query : Query) (h : Query.parse source = .ok query) :
    query.Covered ∧ ∀ node, query.pipeline.Has node →
      query.Places node ∧ node.Regular query.tape :=
  ⟨covered_of_parse h, fun _ hnode => ⟨places_of_has h hnode, regular_of_parse h hnode⟩⟩

theorem parse_derives_nested : ∃ query,
    Query.parse "search a=1 (b IN (x, y) OR NOT /var/log) [search *c* | lookup t u OUTPUT v]" =
      .ok query ∧ query.Covered ∧ ∀ node, query.pipeline.Has node →
        query.Places node ∧ node.Regular query.tape := by
  have hread : (Query.parse
      "search a=1 (b IN (x, y) OR NOT /var/log) [search *c* | lookup t u OUTPUT v]").toOption.any
        (fun _ => true) = true := by decide +kernel
  obtain ⟨query, hparse, -⟩ := parse_of_any hread
  exact ⟨query, hparse, parse_derives _ query hparse⟩

-- The trees of queries respect precedence: every operator and every connective has operands that can
-- stand there without parentheses.
theorem parse_graded (source : String) (query : Query) (h : Query.parse source = .ok query) :
    ∀ node, query.pipeline.Has node → node.Graded :=
  fun _ hnode => (regular_of_parse h hnode).graded

theorem parse_graded_stars : ∃ query,
    Query.parse "search k=a*b^c^d-e*f%g/h OR NOT *x* AND (b=2 OR c) [search *t*u*v w* AND d*]" =
      .ok query ∧ ∀ node, query.pipeline.Has node → node.Graded := by
  have hread : (Query.parse
      "search k=a*b^c^d-e*f%g/h OR NOT *x* AND (b=2 OR c) [search *t*u*v w* AND d*]").toOption.any
        (fun _ => true) = true := by decide +kernel
  obtain ⟨query, hparse, -⟩ := parse_of_any hread
  exact ⟨query, hparse, parse_graded _ query hparse⟩

end Query

end SearchPipeline
