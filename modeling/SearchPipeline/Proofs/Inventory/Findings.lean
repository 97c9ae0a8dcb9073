import SearchPipeline.Proofs.Inventory.Listed

namespace SearchPipeline

-- The pipeline that stands in the brackets.
def Subquery.pipeline : Subquery → Pipeline
  | .mk opening later span => ⟨opening, later, span⟩

theorem Mention.settle_append (derived : List String) (first second : List Mention) :
    settle derived (first ++ second) =
      ((settle derived first).1 ++ (settle (settle derived first).2 second).1,
        (settle (settle derived first).2 second).2) := by
  induction first generalizing derived with
  | nil => rfl
  | cons mention first ih =>
      cases mention with
      | reads field =>
          by_cases hinput : Mention.isInput derived field = true
          · simp [settle, ih, hinput]
          · simp [settle, ih, hinput]
      | derives field => simp [settle, ih]
      | found finding => simp [settle, ih]

namespace Query

variable (query : Query)

-- The findings in the brackets behind a stage, if there are any.
def bracketFindings : Option Subquery → List Finding
  | some subquery => query.subqueryFindings subquery
  | none => []

theorem stageFindings_mk (derived : List String) (piped : Bool) (command : Option Command)
    (operations : List Operation) (subquery : Option Subquery) (span : Span) :
    query.stageFindings derived (.mk piped command operations subquery span) =
      let branch := opensBranch (command.map (·.name))
      let settled := Mention.settle (if branch then [] else derived)
        (query.stageMentions (command.map (·.name)) operations)
      (settled.1 ++ query.bracketFindings subquery, if branch then derived else settled.2) := by
  cases subquery <;> rw [stageFindings.eq_def] <;> rfl

theorem stagesFindings_cons (derived : List String) (first : Stage) (rest : List Stage) :
    query.stagesFindings derived (first :: rest) = (query.stageFindings derived first).1 ++
      query.stagesFindings (query.stageFindings derived first).2 rest := by
  rw [stagesFindings]

-- The fields derived behind some stages, given those derived before.
def derivedBehind (derived : List String) : List Stage → List String
  | [] => derived
  | first :: rest => derivedBehind (query.stageFindings derived first).2 rest

theorem stagesFindings_append (derived : List String) (before behind : List Stage) :
    query.stagesFindings derived (before ++ behind) = query.stagesFindings derived before ++
      query.stagesFindings (query.derivedBehind derived before) behind := by
  induction before generalizing derived with
  | nil => simp [stagesFindings, derivedBehind]
  | cons first before ih =>
      rw [List.cons_append, stagesFindings_cons, stagesFindings_cons, ih, derivedBehind,
        List.append_assoc]

variable {query}

theorem subqueryFindings_eq (subquery : Subquery) :
    query.subqueryFindings subquery = query.stagesFindings [] subquery.pipeline.stages := by
  obtain ⟨opening, later, span⟩ := subquery
  rw [subqueryFindings, Subquery.pipeline, Pipeline.stages, stagesFindings_cons]

theorem mem_inventory {category : Category} {text : String} :
    text ∈ query.inventory.listed category ↔
      text ≠ "" ∧ ⟨category, text⟩ ∈ query.stagesFindings [] query.pipeline.stages := by
  rw [inventory, findings, Inventory.listed_ofFindings, Inventory.mem_collect]

theorem mem_inputFields {field : String} : field ∈ query.inventory.inputFields ↔
    field ≠ "" ∧ ⟨.inputField, field⟩ ∈ query.stagesFindings [] query.pipeline.stages :=
  show field ∈ query.inventory.listed .inputField ↔ _ from mem_inventory

end Query

end SearchPipeline
