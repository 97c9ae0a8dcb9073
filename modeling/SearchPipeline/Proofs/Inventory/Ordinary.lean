import SearchPipeline.Proofs.Inventory.Evaluated

namespace SearchPipeline

namespace FieldName

open Text

variable {text keyword : List Char}

-- A letter or an underscore, then letters, digits, underscores and points, and not the ending of the
-- name of a file.
structure Ordinary (text : List Char) : Prop where
  chars : ∀ c ∈ text, c.isAlpha = true ∨ c.isDigit = true ∨ c = '_' ∨ c = '.'
  opens : headIs (fun c => c.isAlpha || c == '_') text = true
  ending : ∀ ending ∈ fileEndings, ¬ ending <:+ lower text

instance : DecidablePred Ordinary := fun text =>
  decidable_of_iff
    (text.all (fun c => c.isAlpha || c.isDigit || c == '_' || c == '.') = true ∧
      headIs (fun c => c.isAlpha || c == '_') text = true ∧
      ∀ ending ∈ fileEndings, ¬ ending <:+ lower text)
    ⟨fun ⟨chars, opens, ending⟩ => ⟨by simpa [or_assoc] using chars, opens, ending⟩,
      fun ⟨chars, opens, ending⟩ => ⟨by simpa [or_assoc] using chars, opens, ending⟩⟩

-- The keyword in any case, and behind it a capital, or a point somewhere.
def Glued (keyword text : List Char) : Prop :=
  lower (text.take keyword.length) = keyword ∧
    ('.' ∈ text.drop keyword.length ∨ headIs Char.isUpper (text.drop keyword.length) = true)

-- The keyword in any case, and right behind it a capital or a point.
def GluedAtOnce (keyword text : List Char) : Prop :=
  lower (text.take keyword.length) = keyword ∧
    headIs (fun c => c == '.' || c.isUpper) (text.drop keyword.length) = true

instance (keyword text : List Char) : Decidable (Glued keyword text) :=
  inferInstanceAs (Decidable (_ ∧ _))

instance (keyword text : List Char) : Decidable (GluedAtOnce keyword text) :=
  inferInstanceAs (Decidable (_ ∧ _))

theorem isGlued_iff : isGlued text keyword = true ↔ Glued keyword text := by
  rw [isGlued, Bool.and_eq_true, Bool.or_eq_true, List.isPrefixOf_iff_prefix,
    List.prefix_iff_eq_take, List.contains_iff_mem, Glued, lower, ← List.map_take, eq_comm, ← lower]

-- An ordinary name is held to be a field unless a keyword is glued to it.
theorem Ordinary.isLikely_iff (h : Ordinary text) :
    isLikely text = true ↔ ∀ keyword ∈ gluedKeywords, ¬ Glued keyword text := by
  obtain ⟨hchars, hopens, hending⟩ := h
  have hempty : text.isEmpty = false := by
    cases text with
    | nil => cases hopens
    | cons c text => rfl
  have hletter : (text.any fun c => c.isAlpha || c == '_') = true := by
    cases text with
    | nil => cases hopens
    | cons c text => exact List.any_eq_true.2 ⟨c, List.mem_cons_self, hopens⟩
  have hpoint : headIs (· == '.') text = false := by
    cases text with
    | nil => rfl
    | cons c text =>
        refine beq_eq_false_iff_ne.2 ?_
        rintro rfl
        cases hopens
  have hfile : (fileEndings.any (·.isSuffixOf (lower text))) = false := by
    refine List.any_eq_false.2 fun ending hmem hsuffix => hending ending hmem ?_
    exact List.isSuffixOf_iff_suffix.1 hsuffix
  have hall : text.all isFieldChar = true := by
    refine List.all_eq_true.2 fun c hc => ?_
    have hchar := hchars c hc
    simpa [isFieldChar, Char.isAlphanum, or_assoc] using hchar
  have hglued : (!gluedKeywords.any (isGlued text)) = true ↔
      ∀ keyword ∈ gluedKeywords, ¬ Glued keyword text := by
    rw [Bool.not_eq_true', List.any_eq_false]
    exact forall₂_congr fun keyword _ => not_congr isGlued_iff
  rw [← hglued]
  simp [isLikely, hempty, hletter, hpoint, hfile, hall]

end FieldName

-- The step names a field: a comparison outside `eval` does whose key is none of the three that name a
-- source of data, a grouping does, and a name that gets another one.
inductive Step.Names : Step → String → Prop where
  | compared {command : Option String} {field : Name} {op : CompareOp} {value : Expr} {span : Span} :
      command ≠ some "eval" → field.text.toLower ∉ ["sourcetype", "source", "datamodel"] →
      Names ⟨command, .compare field op value span⟩ field.text
  | grouped {command : Option String} {names : List Name} {span : Span} {name : Name} :
      name ∈ names → Names ⟨command, .grouping names span⟩ name.text
  | renamed {command : Option String} {name target : Name} {span : Span} :
      Names ⟨command, .rename (.value (.name name)) target span⟩ name.text

def Step.named : Step → List String
  | ⟨command, .compare field _ _ _⟩ =>
      if command ≠ some "eval" ∧ field.text.toLower ∉ ["sourcetype", "source", "datamodel"] then
        [field.text]
      else []
  | ⟨_, .grouping names _⟩ => names.map (·.text)
  | ⟨_, .rename (.value (.name name)) _ _⟩ => [name.text]
  | _ => []

theorem Step.names_iff {step : Step} {field : String} :
    step.Names field ↔ field ∈ step.named := by
  constructor
  · intro h
    cases h with
    | compared heval hkey => simp only [named, if_pos (And.intro heval hkey), List.mem_singleton]
    | grouped hmem => exact List.mem_map_of_mem hmem
    | renamed => exact List.mem_singleton_self _
  · intro h
    unfold named at h
    split at h
    · rw [List.mem_ite_nil_right, List.mem_singleton] at h
      obtain ⟨⟨heval, hkey⟩, rfl⟩ := h
      exact .compared heval hkey
    · obtain ⟨name, hname, rfl⟩ := List.mem_map.1 h
      exact .grouped hname
    · obtain rfl := List.mem_singleton.1 h
      exact .renamed
    · cases h

instance (step : Step) (field : String) : Decidable (step.Names field) :=
  decidable_of_iff _ Step.names_iff.symm

theorem Step.Names.reads {step : Step} {field : String} (h : step.Names field) :
    step.Reads field := by
  intro table
  cases h with
  | @compared command field op value span heval hkey =>
      refine ⟨[], value.callReads, ?_, List.not_mem_nil⟩
      rw [Operation.mentions, if_neg heval, Operation.comparisonMentions]
      simp only [List.mem_cons, List.not_mem_nil, or_false, not_or] at hkey
      split
      · next hsame => exact absurd hsame hkey.1
      · next hsame => exact absurd hsame hkey.2.1
      · next hsame => exact absurd hsame hkey.2.2
      · rfl
  | @grouped command names span name hmem =>
      obtain ⟨before, behind, rfl⟩ := List.append_of_mem hmem
      refine ⟨before.map fun name => .reads name.text, behind.map fun name => .reads name.text,
        ?_, by simp⟩
      simp [Operation.mentions]
  | @renamed command name target span =>
      exact ⟨[], [.derives target.text], by simp [Operation.mentions, Expr.asName?, Expr.callReads],
        List.not_mem_nil⟩

-- The steps in which what is derived counts: those of a pipeline at any depth, or of a single branch.
inductive Pipeline.Scope (pipeline : Pipeline) : List Step → Prop where
  | whole {scope : Pipeline} : pipeline.Encloses scope → Scope pipeline scope.steps
  | branch {scope : Pipeline} {stage : Stage} : pipeline.Encloses scope → stage ∈ scope.stages →
      Query.opensBranch stage.commandName? = true → Scope pipeline stage.steps

namespace Query

variable {query : Query} {steps earlier later : List Step} {step : Step} {field : String}

theorem mem_findings_of_scope (hscope : query.pipeline.Scope steps) (hreads : step.Reads field)
    (hlikely : FieldName.isLikely field.toList = true)
    (hcommand : (Keyword.classify field).isCommand = false)
    (hsteps : steps = earlier ++ step :: later) (hearlier : ∀ before ∈ earlier, ¬ before.Derives field) :
    ⟨.inputField, field⟩ ∈ query.stagesFindings [] query.pipeline.stages := by
  cases hscope with
  | whole hencloses =>
      exact mem_findings_of_encloses hencloses
        (mem_stagesFindings_of_reads hreads hlikely hcommand hsteps List.not_mem_nil hearlier)
  | branch hencloses hstage hbranch =>
      refine mem_findings_of_encloses hencloses ?_
      obtain ⟨before, behind, hstages⟩ := List.append_of_mem hstage
      rw [hstages, stagesFindings_append, stagesFindings_cons, List.mem_append, List.mem_append]
      refine .inr (.inl (mem_stageFindings_of_reads hreads hlikely hcommand hsteps ?_ hearlier))
      rw [hbranch]
      intro hfalse
      cases hfalse

-- An ordinary name is held to be a field just if no keyword is glued to it. Then, unless it is a
-- command, it is an input of every query that names it in a step before which its scope does not derive
-- it.
theorem discover_ordinary (text : String) (hordinary : FieldName.Ordinary text.toList) :
    (FieldName.isLikely text.toList = true ↔
      ∀ keyword ∈ FieldName.gluedKeywords, ¬ FieldName.Glued keyword text.toList) ∧
    ∀ (source : String) (query : Query) (steps earlier later : List Step) (step : Step),
      (∀ keyword ∈ FieldName.gluedKeywords, ¬ FieldName.Glued keyword text.toList) →
      (Keyword.classify text).isCommand = false → Query.parse source = .ok query →
      query.pipeline.Scope steps → steps = earlier ++ step :: later → step.Names text →
      (∀ before ∈ earlier, ¬ before.Derives text) →
      ∃ inventory, Inventory.discover source = .ok inventory ∧ text ∈ inventory.inputFields := by
  refine ⟨hordinary.isLikely_iff, ?_⟩
  intro source query steps earlier later step hfree hcommand hparse hscope hsteps hnames hearlier
  have hlikely := hordinary.isLikely_iff.2 hfree
  have hfinding := mem_findings_of_scope hscope hnames.reads hlikely hcommand hsteps hearlier
  have hne : text ≠ "" := by
    rintro rfl
    cases hlikely
  exact ⟨_, discover_of_parse hparse, mem_inputFields.2 ⟨hne, hfinding⟩⟩

-- Letters of a keyword alone do not count, and a name that only the outer scope derives is found in
-- brackets.
theorem discover_ordinary_nested : FieldName.Ordinary "bytes_in".toList ∧
    FieldName.isLikely "bytes_in".toList = true ∧ ∃ query steps earlier later step,
    Query.parse "search a=1 | eval bytes_in=2 [search b=3 | stats count by bytes_in]" = .ok query ∧
    query.pipeline.Scope steps ∧ steps = earlier ++ step :: later ∧ step.Names "bytes_in" ∧
    ∃ inventory,
      Inventory.discover "search a=1 | eval bytes_in=2 [search b=3 | stats count by bytes_in]" =
        .ok inventory ∧ "bytes_in" ∈ inventory.inputFields := by
  have hordinary : FieldName.Ordinary "bytes_in".toList := by decide
  have hfree : ∀ keyword ∈ FieldName.gluedKeywords,
      ¬ FieldName.Glued keyword "bytes_in".toList := by
    decide
  have hread : (Query.parse
      "search a=1 | eval bytes_in=2 [search b=3 | stats count by bytes_in]").toOption.any
        (fun query => query.pipeline.later.any fun stage => stage.subquery.any fun inner =>
          (inner.pipeline.steps.take 2).all (fun step => !decide (step.Derives "bytes_in")) &&
            inner.pipeline.steps[2]?.any fun step => decide (step.Names "bytes_in")) = true := by
    decide +kernel
  obtain ⟨query, hparse, hcheck⟩ := parse_of_any hread
  obtain ⟨stage, hstage, hcheck⟩ := List.any_eq_true.1 hcheck
  obtain ⟨inner, hinner, hcheck⟩ := (Option.any_eq_true _ _).1 hcheck
  rw [Bool.and_eq_true, List.all_eq_true] at hcheck
  obtain ⟨hearlier, hcheck⟩ := hcheck
  obtain ⟨step, hstep, hnames⟩ := (Option.any_eq_true _ _).1 hcheck
  have hnames : step.Names "bytes_in" := of_decide_eq_true hnames
  have hsteps : inner.pipeline.steps =
      inner.pipeline.steps.take 2 ++ step :: inner.pipeline.steps.drop 3 := by
    obtain ⟨hlt, rfl⟩ := List.getElem?_eq_some_iff.1 hstep
    rw [List.getElem_cons_drop, List.take_append_drop]
  have hscope : query.pipeline.Scope inner.pipeline.steps :=
    .whole (.inside .self (List.mem_cons_of_mem _ hstage) hinner)
  refine ⟨hordinary, (discover_ordinary "bytes_in" hordinary).1.2 hfree, query, _, _, _, step, hparse,
    hscope, hsteps, hnames, ?_⟩
  exact (discover_ordinary "bytes_in" hordinary).2 _ query _ _ _ step hfree (by decide +kernel) hparse
    hscope hsteps hnames fun before hbefore => by simpa using hearlier before hbefore

-- The keyword `as` counts as glued for a point that stands far behind it.
theorem discover_ordinary_distant_point : FieldName.Ordinary "asset.name".toList ∧
    (∀ keyword ∈ FieldName.gluedKeywords, ¬ FieldName.GluedAtOnce keyword "asset.name".toList) ∧
    FieldName.isLikely "asset.name".toList = false ∧
    (Keyword.classify "asset.name").isCommand = false ∧
    ∃ query steps step later, Query.parse "search asset.name=1" = .ok query ∧
      query.pipeline.Scope steps ∧ steps = step :: later ∧ step.Names "asset.name" ∧ ∃ inventory,
        Inventory.discover "search asset.name=1" = .ok inventory ∧ inventory.inputFields = [] := by
  have hread : (Query.parse "search asset.name=1").toOption.any (fun query =>
      query.inventory.inputFields == [] && query.pipeline.steps[0]?.any fun step =>
        decide (step.Names "asset.name")) = true := by
    decide +kernel
  obtain ⟨query, hparse, hcheck⟩ := parse_of_any hread
  rw [Bool.and_eq_true, beq_iff_eq] at hcheck
  obtain ⟨hfields, hcheck⟩ := hcheck
  obtain ⟨step, hstep, hnames⟩ := (Option.any_eq_true _ _).1 hcheck
  have hnames : step.Names "asset.name" := of_decide_eq_true hnames
  have hsteps : query.pipeline.steps = step :: query.pipeline.steps.tail := by
    cases hlist : query.pipeline.steps with
    | nil => simp [hlist] at hstep
    | cons first rest =>
        rw [hlist] at hstep
        rw [Option.some.inj hstep, List.tail_cons]
  exact ⟨by decide, by decide, by decide +kernel, by decide +kernel, query, _, step, _, hparse,
    .whole .self, hsteps, hnames, _, discover_of_parse hparse, hfields⟩

end Query

end SearchPipeline
