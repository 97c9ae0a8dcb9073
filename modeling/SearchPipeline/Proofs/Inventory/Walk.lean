import SearchPipeline.Proofs.Grammar.Children
import SearchPipeline.Proofs.Inventory.Findings
import SearchPipeline.Proofs.Token.Respelling

namespace SearchPipeline

open Grammar

namespace Inventory

def add (inventory : Inventory) (finding : Finding) : Inventory :=
  match finding.category with
  | .datamodel => { inventory with datamodels := addNew inventory.datamodels finding.text }
  | .dataset => { inventory with datasets := addNew inventory.datasets finding.text }
  | .lookup => { inventory with lookups := addNew inventory.lookups finding.text }
  | .source => { inventory with sources := addNew inventory.sources finding.text }
  | .sourcetype => { inventory with sourcetypes := addNew inventory.sourcetypes finding.text }
  | .inputField => { inventory with inputFields := addNew inventory.inputFields finding.text }

def addAll (inventory : Inventory) (findings : List Finding) : Inventory :=
  findings.foldl add inventory

theorem addAll_append (inventory : Inventory) (first second : List Finding) :
    inventory.addAll (first ++ second) = (inventory.addAll first).addAll second :=
  List.foldl_append

theorem listed_add (inventory : Inventory) (finding : Finding) (category : Category) :
    (inventory.add finding).listed category =
      if finding.category = category then addNew (inventory.listed category) finding.text
      else inventory.listed category := by
  obtain ⟨found, text⟩ := finding
  cases found <;> cases category <;> rfl

theorem listed_addAll (inventory : Inventory) (findings : List Finding) (category : Category) :
    (inventory.addAll findings).listed category =
      ((findings.filter (·.category = category)).map (·.text)).foldl addNew
        (inventory.listed category) := by
  induction findings generalizing inventory with
  | nil => rfl
  | cons finding findings ih =>
      rw [addAll, List.foldl_cons, ← addAll, ih, listed_add, List.filter_cons]
      by_cases hcategory : finding.category = category
      · simp [hcategory]
      · simp [hcategory]

theorem macros_addAll (inventory : Inventory) (findings : List Finding) :
    (inventory.addAll findings).macros = inventory.macros := by
  induction findings generalizing inventory with
  | nil => rfl
  | cons finding findings ih =>
      rw [addAll, List.foldl_cons, ← addAll, ih]
      obtain ⟨found, text⟩ := finding
      cases found <;> rfl

-- Two inventories with the same lists are the same.
theorem ext_listed {a b : Inventory} (hmacros : a.macros = b.macros)
    (hlisted : ∀ category, a.listed category = b.listed category) : a = b := by
  obtain ⟨models, datasets, lookups, macros, sources, sourcetypes, fields⟩ := a
  obtain ⟨models', datasets', lookups', macros', sources', sourcetypes', fields'⟩ := b
  obtain rfl : models = models' := hlisted .datamodel
  obtain rfl : datasets = datasets' := hlisted .dataset
  obtain rfl : lookups = lookups' := hlisted .lookup
  obtain rfl : macros = macros' := hmacros
  obtain rfl : sources = sources' := hlisted .source
  obtain rfl : sourcetypes = sourcetypes' := hlisted .sourcetype
  obtain rfl : fields = fields' := hlisted .inputField
  rfl

theorem addAll_empty (findings : List Finding) :
    addAll {} findings = ofFindings findings := by
  refine ext_listed (macros_addAll {} findings) fun category => ?_
  rw [listed_addAll, listed_ofFindings, collect, distinct]
  cases category <;> rfl

end Inventory

-- The state of a walk. The scope at work is never missing.
structure Walker where
  inventory : Inventory := {}
  scope : List String := []
  outer : List (List String) := []
  table : Option Span := none

namespace Walker

variable (walker : Walker)

-- The fields derived in each open scope, the innermost first.
def scopes : List (List String) := walker.scope :: walker.outer

def push : Walker := { walker with scope := [], outer := walker.scopes }

-- The outermost scope is never closed.
def pop : Walker :=
  match walker.outer with
  | [] => walker
  | scope :: outer => { walker with scope, outer }

def enter (branch : Bool) : Walker := if branch then walker.push else walker

def leave (branch : Bool) : Walker := if branch then walker.pop else walker

def forget : Walker := { walker with table := none }

def mention : Mention → Walker
  | .reads field =>
      if Mention.isInput walker.scope field then
        { walker with inventory := walker.inventory.add ⟨.inputField, field⟩ }
      else walker
  | .derives field => { walker with scope := field :: walker.scope }
  | .found finding => { walker with inventory := walker.inventory.add finding }

def mentionAll (mentions : List Mention) : Walker := mentions.foldl mention walker

end Walker

namespace Query

variable (query : Query)

-- The operands of a command. Whatever the command, the table at hand is that of the last `lookup`.
def visitOperands (command : Option String) (operations : List Operation) (walker : Walker) :
    Walker :=
  let walker := walker.mentionAll (query.commandMentions command operations)
  let walker := { walker with table := (stageTable? command operations).or walker.table }
  walker.mentionAll (operations.flatMap (Operation.mentions command walker.table))

mutual

-- One stage. The table of a `lookup` is forgotten before a subquery, unless the stage opens its
-- pipeline.
def visitStage (opens : Bool) (walker : Walker) : Stage → Walker
  | .mk _ command operations subquery _ =>
      let command := command.map (·.name)
      let begun := walker.enter (opensBranch command)
      let read := query.visitOperands command operations begun
      let left := visitBrackets (if opens then read else read.forget) subquery
      left.leave (opensBranch command)

def visitBrackets (walker : Walker) : Option Subquery → Walker
  | none => walker
  | some subquery => visitSubquery walker subquery

def visitSubquery (walker : Walker) : Subquery → Walker
  | .mk opening later _ => (visitStages (visitStage true walker.push opening) later).pop

def visitStages (walker : Walker) : List Stage → Walker
  | [] => walker
  | first :: rest => visitStages (visitStage false walker first) rest

end

def walk : Walker :=
  query.visitStages (query.visitStage true {} query.pipeline.opening) query.pipeline.later

end Query

namespace Walker

-- What is visited in a scope of its own leaves the other scopes alone, so they are back when it is
-- closed.
theorem pop_of_outer {begun : Walker} (walker : Walker) (h : begun.outer = walker.scopes) :
    begun.pop = { begun with scope := walker.scope, outer := walker.outer } := by
  rw [pop, h]
  rfl

theorem leave_outer {branch : Bool} {begun walker : Walker}
    (h : begun.outer = (walker.enter branch).outer) : (begun.leave branch).outer = walker.outer := by
  cases branch with
  | false => exact h
  | true =>
      rw [leave, if_pos rfl, pop_of_outer walker h]

variable (walker : Walker)

theorem mentionAll_eq (mentions : List Mention) : walker.mentionAll mentions =
    { walker with
      inventory := walker.inventory.addAll (Mention.settle walker.scope mentions).1
      scope := (Mention.settle walker.scope mentions).2 } := by
  induction mentions generalizing walker with
  | nil => rfl
  | cons first mentions ih =>
      rw [mentionAll, List.foldl_cons, ← mentionAll, ih]
      cases first with
      | reads field =>
          by_cases hinput : Mention.isInput walker.scope field = true
          · simp [mention, Mention.settle, hinput, Inventory.addAll]
          · simp [mention, Mention.settle, hinput]
      | derives field => rfl
      | found finding => rfl

end Walker

namespace Query

variable {query : Query}

theorem visitOperands_eq {walker : Walker} (htable : walker.table = none) (command : Option String)
    (operations : List Operation) : query.visitOperands command operations walker =
      { inventory := walker.inventory.addAll
          (Mention.settle walker.scope (query.stageMentions command operations)).1
        scope := (Mention.settle walker.scope (query.stageMentions command operations)).2
        outer := walker.outer
        table := stageTable? command operations } := by
  rw [stageMentions, Mention.settle_append, Inventory.addAll_append]
  simp only [visitOperands, Walker.mentionAll_eq, htable, Option.or_none]

-- An opening stage does not forget a table, but it has none.
theorem visitOperands_forgets {walker : Walker} (htable : walker.table = none) {opens : Bool}
    {command : Option String} (hopens : opens = true → command ≠ some "lookup")
    (operations : List Operation) :
    (if opens then query.visitOperands command operations walker
      else (query.visitOperands command operations walker).forget) =
    { walker with
      inventory := walker.inventory.addAll
        (Mention.settle walker.scope (query.stageMentions command operations)).1
      scope := (Mention.settle walker.scope (query.stageMentions command operations)).2 } := by
  rw [visitOperands_eq htable, htable]
  cases opens with
  | false => rfl
  | true => simp [stageTable?, hopens rfl]

theorem visitOperands_outer (command : Option String) (operations : List Operation)
    (walker : Walker) : (query.visitOperands command operations walker).outer = walker.outer := by
  simp only [visitOperands, Walker.mentionAll_eq]

mutual

-- A stage opens no scope that it does not close.
theorem visitStage_outer (query : Query) (opens : Bool) (walker : Walker) : (s : Stage) →
    (query.visitStage opens walker s).outer = walker.outer
  | .mk _ command operations subquery _ => by
      rw [visitStage]
      apply Walker.leave_outer
      rw [(List.cons.inj (visitBrackets_scopes query _ subquery)).2]
      cases opens <;> exact visitOperands_outer _ _ _

theorem visitBrackets_scopes (query : Query) (walker : Walker) : (subquery : Option Subquery) →
    (query.visitBrackets walker subquery).scopes = walker.scopes
  | none => by rw [visitBrackets]
  | some subquery => by rw [visitBrackets, visitSubquery_scopes]

-- When a subquery has been visited, the scopes are those that there were before.
theorem visitSubquery_scopes (query : Query) (walker : Walker) : (subquery : Subquery) →
    (query.visitSubquery walker subquery).scopes = walker.scopes
  | .mk opening later _ => by
      rw [visitSubquery, Walker.pop_of_outer walker]
      · rfl
      · rw [visitStages_outer, visitStage_outer]
        rfl

theorem visitStages_outer (query : Query) (walker : Walker) : (stages : List Stage) →
    (query.visitStages walker stages).outer = walker.outer
  | [] => by rw [visitStages]
  | first :: rest => by rw [visitStages, visitStages_outer, visitStage_outer]

end

section

variable {source : String} (hparse : Query.parse source = .ok query)

include hparse

-- A leaf is the text of one token, of one of the kinds that the grammar asks for.
theorem token_of_leaf {node : Node} (h : query.pipeline.Has node) {kinds : List Kind} {text : String}
    (hparts : node.parts = [.token kinds]) (htext : node.text? = some text) :
    ∃ token ∈ query.tokens, token.isTrivia = false ∧ token.text = text ∧ token.kind ∈ kinds := by
  obtain ⟨stop, hspells, -⟩ := parse_spells hparse
  obtain ⟨first, last, -, hderives⟩ := derives_of_has hspells h
  have hfinish := Kind.ne_finish (hderives.grammatical (Nat.le_refl first) hderives.lt)
  obtain ⟨hkind, rfl⟩ := hderives.token_of_parts hparts
  obtain ⟨token, hget, htrivia, hsame, htoken⟩ := Tape.token_of_kind hfinish
  refine ⟨token, List.mem_of_getElem? hget, htrivia, ?_, hsame ▸ hkind⟩
  rw [hderives.fits.text _ htext, Tape.textBetween_single, htoken]
  rfl

-- A leaf that the grammar takes for a word is a word of one of the kinds that the grammar asks for.
theorem classify_leaf {node : Node} (h : query.pipeline.Has node) {kinds : List Kind} {text : String}
    (hparts : node.parts = [.token kinds]) (htext : node.text? = some text)
    (hword : ∀ kind ∈ kinds, kind ∈ Scan.wordKinds) : Keyword.classify text ∈ kinds := by
  obtain ⟨token, hmem, -, rfl, hkind⟩ := token_of_leaf hparse h hparts htext
  have hscan := Scan.tokens_eq_ok_iff.1 (parse_eq_ok hparse).2.1
  rwa [← hscan.kind_eq_classify hmem (hword _ hkind)]

-- A command is a keyword of its kind.
theorem classify_command {command : Command} (h : query.pipeline.Has (.command command)) :
    Keyword.classify command.name = command.kind := by
  have hlegal : command.kind.isCommand = true := (places_of_has hparse h).legal
  refine List.mem_singleton.1 (classify_leaf hparse h rfl rfl ?_)
  rw [List.forall_mem_singleton]
  revert hlegal
  cases command.kind <;> decide

-- `lookup` does not open a pipeline.
theorem opening_ne_lookup {s : Stage} (h : query.pipeline.Has (.opening s)) :
    s.commandName? ≠ some "lookup" := by
  intro hname
  obtain ⟨command, hcommand, hlookup⟩ := Option.map_eq_some_iff.1 hname
  have hchild : query.pipeline.Has (.command command) := by
    exact .inside h (by simp [Node.children_opening, Stage.nodes, hcommand])
  have hkind := (places_of_has hparse h).legal.2 command hcommand
  have hclass := classify_command hparse hchild
  have hother : Keyword.classify "lookup" = .commandOrFunction := by decide +kernel
  rw [hlookup, hkind, hother] at hclass
  cases hclass

end

theorem mem_children_of_subquery {s : Stage} {inner : Subquery} (h : s.subquery = some inner) :
    .subquery inner ∈ (Node.opening s).children ∧ .subquery inner ∈ (Node.stage s).children := by
  rw [Node.children_opening, Node.children_stage, Stage.nodes, h]
  simp

theorem mem_children_of_stage (opening : Stage) (later : List Stage) (span : Span) :
    .opening opening ∈ (Node.subquery (.mk opening later span)).children ∧
      ∀ s ∈ later, .stage s ∈ (Node.subquery (.mk opening later span)).children := by
  rw [Node.children_subquery]
  exact ⟨List.mem_cons_self, fun s hs => List.mem_cons_of_mem _ (List.mem_map_of_mem hs)⟩

-- A stage that is visited first, and the stages behind it.
theorem visitStages_of_first {opens : Bool} (walker : Walker) (htable : walker.table = none)
    {first : Stage} {rest : List Stage}
    (hfirst : query.visitStage opens walker first =
      { walker with
        inventory := walker.inventory.addAll (query.stageFindings walker.scope first).1
        scope := (query.stageFindings walker.scope first).2 })
    (hrest : ∀ begun : Walker, begun.table = none → ∃ scope, query.visitStages begun rest =
      { begun with
        inventory := begun.inventory.addAll (query.stagesFindings begun.scope rest), scope }) :
    ∃ scope, query.visitStages (query.visitStage opens walker first) rest =
      { walker with
        inventory := walker.inventory.addAll (query.stagesFindings walker.scope (first :: rest))
        scope } := by
  obtain ⟨scope, hscope⟩ := hrest (query.visitStage opens walker first) (by rw [hfirst]; exact htable)
  refine ⟨scope, ?_⟩
  rw [hscope, hfirst, stagesFindings, Inventory.addAll_append]

mutual

-- With no table at hand, the visit of a stage lists the findings of the stage and has its derived
-- fields in the scope.
theorem visitStage_eq {pipeline : Pipeline}
    (hopens : ∀ s, pipeline.Has (.opening s) → s.commandName? ≠ some "lookup") (opens : Bool)
    (walker : Walker) (htable : walker.table = none) :
    (s : Stage) → pipeline.Has (if opens then .opening s else .stage s) →
    query.visitStage opens walker s =
      { walker with
        inventory := walker.inventory.addAll (query.stageFindings walker.scope s).1
        scope := (query.stageFindings walker.scope s).2 }
  | .mk piped command operations subquery span, hs => by
      have hbrackets : ∀ inner ∈ subquery, pipeline.Has (.subquery inner) := by
        intro inner hinner
        have hchild := mem_children_of_subquery
          (s := .mk piped command operations subquery span) hinner
        refine .inside hs ?_
        cases opens
        · exact hchild.2
        · exact hchild.1
      have henter : (walker.enter (opensBranch (command.map (·.name)))).table = none := by
        rw [Walker.enter]
        split <;> exact htable
      have hname : opens = true → command.map (·.name) ≠ some "lookup" := by
        rintro rfl
        exact hopens _ hs
      rw [visitStage, stageFindings_mk]
      dsimp only
      rw [visitOperands_forgets henter hname, visitBrackets_eq hopens ?_ subquery hbrackets,
        Inventory.addAll_append]
      · generalize opensBranch (command.map (·.name)) = branch
        cases branch <;> rfl
      · exact henter

theorem visitBrackets_eq {pipeline : Pipeline}
    (hopens : ∀ s, pipeline.Has (.opening s) → s.commandName? ≠ some "lookup") {walker : Walker}
    (htable : walker.table = none) :
    (subquery : Option Subquery) → (∀ inner ∈ subquery, pipeline.Has (.subquery inner)) →
    query.visitBrackets walker subquery =
      { walker with inventory := walker.inventory.addAll (query.bracketFindings subquery) }
  | none, _ => by
      rw [visitBrackets]
      rfl
  | some subquery, hs => by
      rw [visitBrackets, visitSubquery_eq hopens htable subquery (hs subquery rfl)]
      rfl

theorem visitSubquery_eq {pipeline : Pipeline}
    (hopens : ∀ s, pipeline.Has (.opening s) → s.commandName? ≠ some "lookup") {walker : Walker}
    (htable : walker.table = none) :
    (subquery : Subquery) → pipeline.Has (.subquery subquery) →
    query.visitSubquery walker subquery =
      { walker with inventory := walker.inventory.addAll (query.subqueryFindings subquery) }
  | .mk opening later span, hs => by
      have hchildren := mem_children_of_stage opening later span
      have hopening : pipeline.Has (.opening opening) := .inside hs hchildren.1
      obtain ⟨scope, hscope⟩ := visitStages_of_first walker.push htable
        (visitStage_eq hopens true walker.push htable opening hopening)
        fun begun hbegun => visitStages_eq hopens hbegun later
          fun s hmem => .inside hs (hchildren.2 s hmem)
      rw [visitSubquery, hscope, Walker.pop_of_outer walker rfl, subqueryFindings,
        stagesFindings]
      rfl

theorem visitStages_eq {pipeline : Pipeline}
    (hopens : ∀ s, pipeline.Has (.opening s) → s.commandName? ≠ some "lookup") {walker : Walker}
    (htable : walker.table = none) :
    (stages : List Stage) → (∀ s ∈ stages, pipeline.Has (.stage s)) →
    ∃ scope, query.visitStages walker stages =
      { walker with
        inventory := walker.inventory.addAll (query.stagesFindings walker.scope stages), scope }
  | [], _ => by
      rw [visitStages, stagesFindings]
      exact ⟨walker.scope, rfl⟩
  | first :: rest, hs => by
      rw [visitStages]
      exact visitStages_of_first walker htable
        (visitStage_eq hopens false walker htable first (hs first List.mem_cons_self))
        fun begun hbegun => visitStages_eq hopens hbegun rest
          fun s hmem => hs s (List.mem_cons_of_mem first hmem)

end

-- A walk lists what the findings say if its stages are nodes of a pipeline that no `lookup` opens.
theorem walk_of_has {pipeline : Pipeline}
    (hopens : ∀ s, pipeline.Has (.opening s) → s.commandName? ≠ some "lookup")
    (hopening : pipeline.Has (.opening query.pipeline.opening))
    (hlater : ∀ s ∈ query.pipeline.later, pipeline.Has (.stage s)) :
    query.walk.inventory = query.inventory := by
  obtain ⟨scope, hscope⟩ := visitStages_of_first {} rfl
    (visitStage_eq hopens true {} rfl query.pipeline.opening hopening)
    fun begun hbegun => visitStages_eq hopens hbegun query.pipeline.later hlater
  rw [walk, hscope, inventory, findings, Pipeline.stages]
  exact Inventory.addAll_empty _

-- Walking through a query that has been read lists what its findings say.
theorem walk_inventory {source : String} (hparse : Query.parse source = .ok query) :
    query.walk.inventory = query.inventory :=
  walk_of_has (fun _ => opening_ne_lookup hparse) (has_opening _) fun _ => has_later

end Query

end SearchPipeline
