import SearchPipeline.Proofs.Grammar.Nesting
import SearchPipeline.Proofs.Print.RoundTrip

namespace SearchPipeline

open Grammar

theorem Query.parseAfresh_eq_ok {source : String} {query : Query}
    (h : Query.parseAfresh source = .ok query) :
    Text.isBlankText source = false ∧ Scan.tokensOrErrors source = .ok query.tokens ∧
      Grammar.pipelineWith false source query.tokens = .ok query.pipeline ∧
      query.source = source := by
  unfold Query.parseAfresh at h
  split at h
  · cases h
  next hblank =>
  simp only [bind, Except.bind] at h
  split at h
  · cases h
  next htokens =>
  split at h
  · cases h
  next hpipeline =>
  cases h
  exact ⟨Bool.eq_false_iff.2 hblank, htokens, hpipeline, rfl⟩

-- A query that is read without memory is read in the same way with it.
theorem Query.parse_of_parseAfresh {source : String} {query : Query}
    (h : Query.parseAfresh source = .ok query) : Query.parse source = .ok query := by
  obtain ⟨hblank, htokens, hpipeline, rfl⟩ := Query.parseAfresh_eq_ok h
  have hsame : Grammar.pipeline query.source query.tokens = .ok query.pipeline :=
    Grammar.pipeline_of_afresh hpipeline
  simp only [Query.parse, hblank, htokens, hsame, bind, Except.bind, Bool.false_eq_true, if_false]
  rfl

-- No tree has more levels of operations and subqueries than the bound on nesting. Where nothing is
-- remembered, expressions count among the levels. What is remembered may have been read with more
-- levels to go than are left where it is found.
theorem Query.parse_levels {source : String} {query : Query}
    (h : Query.parse source = .ok query) :
    query.pipeline.operationLevels ≤ maxNesting ∧
      (Query.parseAfresh source = .ok query → query.pipeline.levels ≤ maxNesting) := by
  obtain ⟨-, -, hpipeline⟩ := Query.parse_eq_ok h
  refine ⟨pipelineWith_bounded (fun room least pos => ?_) hpipeline, fun hafresh => ?_⟩
  · exact (Rule.Ensures.any _).mono fun _ _ _ => Nat.zero_le room
  · obtain ⟨-, -, hpipeline, -⟩ := Query.parseAfresh_eq_ok hafresh
    exact pipelineWith_bounded expression_bounded hpipeline

-- The deepest node is `f`. Above it are the difference, the parentheses, the products, which share
-- a level, the comparison and the subquery.
theorem Query.parse_levels_nested : ∃ query,
    Query.parse "search NOT a OR b [search c=d*(e-f)*g]" = .ok query ∧
      Query.parseAfresh "search NOT a OR b [search c=d*(e-f)*g]" = .ok query ∧
      query.pipeline.operationLevels = 3 ∧ query.pipeline.levels = 6 ∧
      query.pipeline.operationLevels ≤ maxNesting ∧ query.pipeline.levels ≤ maxNesting := by
  have hread : (Query.parseAfresh "search NOT a OR b [search c=d*(e-f)*g]").toOption.any
      (fun query => query.pipeline.operationLevels = 3 ∧ query.pipeline.levels = 6) = true := by
    decide +kernel
  cases hafresh : Query.parseAfresh "search NOT a OR b [search c=d*(e-f)*g]" with
  | error errors =>
      rw [hafresh] at hread
      cases hread
  | ok query =>
      rw [hafresh] at hread
      obtain ⟨hoperations, hlevels⟩ := of_decide_eq_true hread
      have hparse := Query.parse_of_parseAfresh hafresh
      have hbounds := Query.parse_levels hparse
      exact ⟨query, hparse, rfl, hoperations, hlevels, hbounds.1, hbounds.2 hafresh⟩

section Sums

def Name.x : Name := ⟨.field, "x", ⟨0, 0⟩⟩

-- The tree of `x + x + x` and so on, with the given number of signs.
def Expr.sum : Nat → Expr
  | 0 => .value (.name .x)
  | count + 1 => .binary .add (sum count) (.value (.name .x))

-- The tree of `x=x + x + x` and so on.
def Operation.isSum (count : Nat) : Operation := .compare .x .eq (.sum count) ⟨0, 0⟩

variable (count : Nat)

theorem Name.x_oneWord : Scan.OneWord Name.x.text := letters_oneWord "x" (by decide)

theorem Expr.sum_printable : (sum count).Printable := by
  induction count with
  | zero => exact .name rfl Name.x_oneWord
  | succ count ih => exact .binary ih (.name rfl Name.x_oneWord)

theorem Expr.sum_graded : (Node.expr (sum count)).GradedWithin := by
  have hx : (Node.expr (.value (.name .x))).GradedWithin :=
    expr_gradedWithin trivial (by simp [children])
  induction count with
  | zero => exact hx
  | succ count ih =>
      refine expr_gradedWithin ⟨fun inner hinner => ?_, fun inner hinner => ?_⟩ ?_
      · cases count with
        | zero => cases hinner
        | succ count =>
            cases hinner
            decide
      · cases hinner
      · simp [sum, children, ih, hx]

theorem Expr.sum_steps : (sum count).steps ≤ 1 := by
  induction count with
  | zero => exact Nat.zero_le 1
  | succ count ih => exact Nat.max_le.2 ⟨ih, Nat.le_refl 1⟩

theorem Expr.sum_nesting : (sum count).nesting 1 = count + 1 := by
  induction count with
  | zero => rfl
  | succ count ih =>
      rw [sum, Expr.nesting, ih, Expr.nesting]
      omega

end Sums

section Relabel

variable (r : Relabel) (chain : Nat)

mutual

theorem Expr.nesting_relabel (e : Expr) : (e.relabel r).nesting chain = e.nesting chain := by
  cases e with
  | value _ | wildcard _ | path _ _ => rfl
  | call function args span =>
      rw [Expr.relabel, Expr.nesting, Expr.nesting, argNesting_relabel args]
  | paren inner span | contains inner span | endsWith inner span | startsWith inner span =>
      rw [Expr.relabel, Expr.nesting, Expr.nesting, Expr.nesting_relabel inner]
  | binary op lhs rhs =>
      rw [Expr.relabel, Expr.nesting, Expr.nesting, Expr.nesting_relabel lhs,
        Expr.nesting_relabel rhs]

theorem argNesting_relabel (args : List Expr) :
    argNesting chain (relabelExprs r args) = argNesting chain args := by
  cases args with
  | nil => rfl
  | cons first rest =>
      rw [relabelExprs, argNesting, argNesting, Expr.nesting_relabel first,
        argNesting_relabel rest]

end

theorem deepest_relabel (exprs : List Expr) :
    deepest (Expr.nesting chain) (exprs.map (·.relabel r)) =
      deepest (Expr.nesting chain) exprs := by
  rw [← relabelExprs_eq, ← argNesting_eq, ← argNesting_eq, argNesting_relabel]

theorem Operation.nesting_relabel (o : Operation) :
    (o.relabel r).nesting chain (Expr.nesting chain) = o.nesting chain (Expr.nesting chain) := by
  induction o with
  | like _ _ _ | rename _ _ _ | bare _ _ | compare _ _ _ _ =>
      simp only [relabel, nesting, Expr.nesting_relabel]
  | within expr items _ =>
      simp only [relabel, nesting, deepest, Expr.nesting_relabel, deepest_relabel]
  | output inputs _ _ _ => simp only [relabel, nesting, deepest_relabel]
  | grouping _ _ => rfl
  | not _ _ ih | paren _ _ ih => simp only [relabel, nesting, ih]
  | and _ _ ihl ihr | or _ _ ihl ihr => simp only [relabel, nesting, ihl, ihr]

end Relabel

-- A stage that searches for an operation, at other places of a text, is as deep as that operation.
theorem Operation.nesting_le_of_search {o : Operation} {stage : Stage} {named : Bool}
    (h : stage.relabel .unplaced = (Stage.search named o).relabel .unplaced) :
    o.nesting 1 (Expr.nesting 1) ≤ stage.nesting 1 (Expr.nesting 1) := by
  obtain ⟨piped, command, operations, subquery, span⟩ := stage
  rw [Stage.search, Stage.relabel_mk, Stage.relabel_mk, Stage.mk.injEq] at h
  obtain ⟨-, -, hoperations, -, -⟩ := h
  obtain ⟨read, rfl, hread⟩ : ∃ read, operations = [read] ∧ read.relabel .unplaced =
      o.relabel .unplaced := by
    simpa [List.map_eq_singleton_iff] using hoperations
  rw [← o.nesting_relabel .unplaced, ← hread, read.nesting_relabel, Stage.nesting]
  exact Nat.le_trans (deepest_le_iff.1 (Nat.le_refl _) read List.mem_cons_self)
    (Nat.le_max_left _ _)

-- The nodes of a tree stand inside one another to any depth: a sum of enough terms exceeds every
-- bound.
theorem Query.parse_height_unbounded : ¬ ∃ bound, ∀ source query,
    Query.parse source = .ok query → query.pipeline.height ≤ bound := by
  rintro ⟨bound, hbound⟩
  obtain ⟨o, ho⟩ : ∃ o, o = Operation.isSum bound := ⟨_, rfl⟩
  have hnesting : o.nesting 1 (Expr.nesting 1) = bound + 2 := by
    rw [ho, Operation.isSum, Operation.nesting, Expr.sum_nesting]
  have hprintable : o.Printable := ho ▸ .compare rfl Name.x_oneWord (Expr.sum_printable bound)
  have hgraded : (Node.operation o).GradedWithin := by
    rw [ho]
    exact operation_gradedWithin trivial (by simp [Operation.isSum, Operation.expressions,
      Expr.sum_graded]) (by simp [Operation.isSum, Operation.children])
  have hsteps : o.steps + 2 ≤ maxNesting := by
    have hsum := Expr.sum_steps bound
    rw [ho, Operation.isSum, Operation.steps, maxNesting]
    omega
  obtain ⟨tokens, stage, span, hscan, hsome, hafresh, hstage⟩ :=
    hprintable.query_reads 1 true hgraded (by rw [ho]; rfl) hsteps
  have hheight := hbound _ _ (Query.parse_of_tokens hscan hsome (pipeline_of_afresh hafresh))
  have hstages : stage.nesting 1 (Expr.nesting 1) ≤ bound :=
    deepest_le_iff.1 hheight stage List.mem_cons_self
  have hdeep := Operation.nesting_le_of_search hstage
  omega

end SearchPipeline
