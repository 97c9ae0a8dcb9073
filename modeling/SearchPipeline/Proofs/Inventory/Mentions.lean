import SearchPipeline.Proofs.Inventory.Findings

namespace SearchPipeline

namespace Mention

variable {derived : List String} {mentions : List Mention} {field : String} {finding : Finding}

-- Reading a field, and neither deriving one nor finding anything else.
def IsRead : Mention → Prop
  | .reads _ => True
  | _ => False

-- Derived behind some mentions is what was derived before and what they derive.
theorem mem_settle_derived :
    field ∈ (settle derived mentions).2 ↔ field ∈ derived ∨ .derives field ∈ mentions := by
  induction mentions generalizing derived with
  | nil => simp [settle]
  | cons first mentions ih =>
      cases first with
      | reads other => simp [settle, ih]
      | found other => simp [settle, ih]
      | derives other =>
          rw [settle, ih]
          simp only [List.mem_cons, derives.injEq]
          grind

-- What is read counts as input if it reads like a field and is not derived.
theorem mem_settle_of_reads {before behind : List Mention} (hderived : field ∉ derived)
    (hbefore : .derives field ∉ before) (hlikely : FieldName.isLikely field.toList = true)
    (hcommand : (Keyword.classify field).isCommand = false) :
    ⟨.inputField, field⟩ ∈ (settle derived (before ++ .reads field :: behind)).1 := by
  have hinput : isInput (settle derived before).2 field = true := by
    have hnone : field ∉ (settle derived before).2 := by
      rw [mem_settle_derived, not_or]
      exact ⟨hderived, hbefore⟩
    simp [isInput, hnone, hlikely, hcommand]
  rw [settle_append, List.mem_append]
  exact .inr (by simp [settle, hinput])

-- Whatever is found stays found.
theorem mem_settle_of_found (h : .found finding ∈ mentions) :
    finding ∈ (settle derived mentions).1 := by
  induction mentions generalizing derived with
  | nil => cases h
  | cons first mentions ih =>
      rcases List.mem_cons.1 h with rfl | hmem
      · simp [settle]
      · cases first with
        | reads other =>
            rw [settle]
            dsimp only
            split
            · exact List.mem_cons_of_mem _ (ih hmem)
            · exact ih hmem
        | derives other => exact ih hmem
        | found other => exact List.mem_cons_of_mem _ (ih hmem)

-- Nothing else is found but fields that are read and count as input.
theorem mem_settle (h : finding ∈ (settle derived mentions).1) : .found finding ∈ mentions ∨
    ∃ field, finding = ⟨.inputField, field⟩ ∧ .reads field ∈ mentions ∧ field ∉ derived ∧
      FieldName.isLikely field.toList = true ∧ (Keyword.classify field).isCommand = false := by
  induction mentions generalizing derived with
  | nil => cases h
  | cons first mentions ih =>
      have hrest : ∀ {behind : List String}, derived ⊆ behind →
          finding ∈ (settle behind mentions).1 → .found finding ∈ first :: mentions ∨
            ∃ field, finding = ⟨.inputField, field⟩ ∧ .reads field ∈ first :: mentions ∧
              field ∉ derived ∧ FieldName.isLikely field.toList = true ∧
              (Keyword.classify field).isCommand = false := by
        intro behind hsub hmem
        rcases ih hmem with hfound | ⟨field, hsame, hreads, hnew, hinput⟩
        · exact .inl (List.mem_cons_of_mem first hfound)
        · exact .inr ⟨field, hsame, List.mem_cons_of_mem first hreads,
            fun hold => hnew (hsub hold), hinput⟩
      cases first with
      | reads other =>
          rw [settle] at h
          dsimp only at h
          split at h
          · next hinput =>
            rcases List.mem_cons.1 h with rfl | h
            · simp only [isInput, Bool.and_eq_true, Bool.not_eq_true', List.contains_eq_mem,
                decide_eq_false_iff_not] at hinput
              exact .inr ⟨other, rfl, List.mem_cons_self, hinput.1.1, hinput.1.2, hinput.2⟩
            · exact hrest (List.Subset.refl derived) h
          · exact hrest (List.Subset.refl derived) h
      | derives other => exact hrest (List.subset_cons_self other derived) h
      | found other =>
          rcases List.mem_cons.1 h with rfl | h
          · exact .inl List.mem_cons_self
          · exact hrest (List.Subset.refl derived) h

end Mention

-- The names that are values anywhere in an expression. The segments of a path are parts of one
-- value, which is no name.
inductive Expr.Uses : Expr → Name → Prop where
  | value {name : Name} : Uses (.value (.name name)) name
  | argument {function : FunctionName} {args : List Expr} {span : Span} {arg : Expr} {name : Name} :
      arg ∈ args → Uses arg name → Uses (.call function args span) name
  | paren {inner : Expr} {span : Span} {name : Name} : Uses inner name → Uses (.paren inner span) name
  | contains {inner : Expr} {span : Span} {name : Name} :
      Uses inner name → Uses (.contains inner span) name
  | endsWith {inner : Expr} {span : Span} {name : Name} :
      Uses inner name → Uses (.endsWith inner span) name
  | startsWith {inner : Expr} {span : Span} {name : Name} :
      Uses inner name → Uses (.startsWith inner span) name
  | left {op : ArithOp} {lhs rhs : Expr} {name : Name} : Uses lhs name → Uses (.binary op lhs rhs) name
  | right {op : ArithOp} {lhs rhs : Expr} {name : Name} : Uses rhs name → Uses (.binary op lhs rhs) name

theorem Expr.Uses.of_child {expr child : Expr} {name : Name} (hchild : child ∈ expr.children)
    (h : child.Uses name) : expr.Uses name := by
  cases expr with
  | value value | wildcard span | path names span => cases hchild
  | call function args span => exact .argument hchild h
  | paren inner span | contains inner span | endsWith inner span | startsWith inner span =>
      obtain rfl := List.mem_singleton.1 hchild
      constructor
      exact h
  | binary op lhs rhs =>
      rcases List.mem_cons.1 hchild with rfl | hchild
      · exact .left h
      · obtain rfl := List.mem_singleton.1 hchild
        exact .right h

theorem mem_exprsReferences {args : List Expr} {arg : Expr} {mention : Mention} (harg : arg ∈ args)
    (h : mention ∈ arg.references) : mention ∈ exprsReferences args := by
  induction args with
  | nil => cases harg
  | cons first args ih =>
      rw [exprsReferences, List.mem_append]
      rcases List.mem_cons.1 harg with rfl | harg
      · exact .inl h
      · exact .inr (ih harg)

theorem Expr.Uses.mem_references {expr : Expr} {name : Name} (h : expr.Uses name)
    (huse : name.use ≠ .command) : .reads name.text ∈ expr.references := by
  induction h with
  | value => simp [references, huse]
  | argument harg _ ih =>
      rw [references]
      exact mem_exprsReferences harg (ih huse)
  | paren _ ih | contains _ ih | endsWith _ ih | startsWith _ ih =>
      rw [references]
      exact ih huse
  | left _ ih =>
      rw [references]
      exact List.mem_append_left _ (ih huse)
  | right _ ih =>
      rw [references]
      exact List.mem_append_right _ (ih huse)

mutual

-- All that an expression mentions are names in it, which it reads.
theorem Expr.references_uses : (expr : Expr) → ∀ mention ∈ expr.references,
    ∃ name, expr.Uses name ∧ mention = .reads name.text
  | .value (.name name) => by
      intro mention hmem
      rw [Expr.references] at hmem
      split at hmem
      · cases hmem
      · exact ⟨name, .value, List.mem_singleton.1 hmem⟩
  | .value (.time _ _) | .value (.string _ _) | .value (.number _ _) | .wildcard _ | .path _ _ => by
      simp [Expr.references]
  | .call _ args _ => by
      intro mention hmem
      rw [Expr.references] at hmem
      obtain ⟨arg, harg, name, huses, hsame⟩ := exprsReferences_uses args mention hmem
      exact ⟨name, .argument harg huses, hsame⟩
  | .paren inner _ | .contains inner _ | .endsWith inner _ | .startsWith inner _ => by
      intro mention hmem
      rw [Expr.references] at hmem
      obtain ⟨name, huses, hsame⟩ := Expr.references_uses inner mention hmem
      exact ⟨name, .of_child List.mem_cons_self huses, hsame⟩
  | .binary _ lhs rhs => by
      intro mention hmem
      rw [Expr.references, List.mem_append] at hmem
      rcases hmem with hmem | hmem
      · obtain ⟨name, huses, hsame⟩ := Expr.references_uses lhs mention hmem
        exact ⟨name, .left huses, hsame⟩
      · obtain ⟨name, huses, hsame⟩ := Expr.references_uses rhs mention hmem
        exact ⟨name, .right huses, hsame⟩

theorem exprsReferences_uses : (exprs : List Expr) → ∀ mention ∈ exprsReferences exprs,
    ∃ expr ∈ exprs, ∃ name, expr.Uses name ∧ mention = .reads name.text
  | [] => by simp [exprsReferences]
  | first :: rest => by
      intro mention hmem
      rw [exprsReferences, List.mem_append] at hmem
      rcases hmem with hmem | hmem
      · exact ⟨first, List.mem_cons_self, Expr.references_uses first mention hmem⟩
      · obtain ⟨expr, hexpr, hname⟩ := exprsReferences_uses rest mention hmem
        exact ⟨expr, List.mem_cons_of_mem first hexpr, hname⟩

end

mutual

-- Calls mention names in their arguments and nothing else.
theorem Expr.callReads_uses : (expr : Expr) → ∀ mention ∈ expr.callReads,
    ∃ name, expr.Uses name ∧ mention = .reads name.text
  | .value _ | .wildcard _ | .path _ _ => by simp [Expr.callReads]
  | .call _ args _ => by
      intro mention hmem
      rw [Expr.callReads, List.mem_append] at hmem
      rcases hmem with hmem | hmem
      · obtain ⟨arg, harg, name, huses, hsame⟩ := exprsReferences_uses args mention hmem
        exact ⟨name, .argument harg huses, hsame⟩
      · obtain ⟨arg, harg, name, huses, hsame⟩ := exprsCallReads_uses args mention hmem
        exact ⟨name, .argument harg huses, hsame⟩
  | .paren inner _ | .contains inner _ | .endsWith inner _ | .startsWith inner _ => by
      intro mention hmem
      rw [Expr.callReads] at hmem
      obtain ⟨name, huses, hsame⟩ := Expr.callReads_uses inner mention hmem
      exact ⟨name, .of_child List.mem_cons_self huses, hsame⟩
  | .binary _ lhs rhs => by
      intro mention hmem
      rw [Expr.callReads, List.mem_append] at hmem
      rcases hmem with hmem | hmem
      · obtain ⟨name, huses, hsame⟩ := Expr.callReads_uses lhs mention hmem
        exact ⟨name, .left huses, hsame⟩
      · obtain ⟨name, huses, hsame⟩ := Expr.callReads_uses rhs mention hmem
        exact ⟨name, .right huses, hsame⟩

theorem exprsCallReads_uses : (exprs : List Expr) → ∀ mention ∈ exprsCallReads exprs,
    ∃ expr ∈ exprs, ∃ name, expr.Uses name ∧ mention = .reads name.text
  | [] => by simp [exprsCallReads]
  | first :: rest => by
      intro mention hmem
      rw [exprsCallReads, List.mem_append] at hmem
      rcases hmem with hmem | hmem
      · exact ⟨first, List.mem_cons_self, Expr.callReads_uses first mention hmem⟩
      · obtain ⟨expr, hexpr, hname⟩ := exprsCallReads_uses rest mention hmem
        exact ⟨expr, List.mem_cons_of_mem first hexpr, hname⟩

end

theorem Expr.references_isRead (expr : Expr) : ∀ mention ∈ expr.references, mention.IsRead := by
  intro mention hmem
  obtain ⟨name, -, rfl⟩ := expr.references_uses mention hmem
  trivial

theorem Expr.callReads_isRead (expr : Expr) : ∀ mention ∈ expr.callReads, mention.IsRead := by
  intro mention hmem
  obtain ⟨name, -, rfl⟩ := expr.callReads_uses mention hmem
  trivial

theorem exprsCallReads_isRead (exprs : List Expr) :
    ∀ mention ∈ exprsCallReads exprs, mention.IsRead := by
  intro mention hmem
  obtain ⟨-, -, name, -, rfl⟩ := exprsCallReads_uses exprs mention hmem
  trivial

-- The operations that a combination of operations is made of, left to right.
def Operation.leaves : Operation → List Operation
  | .not inner _ | .paren inner _ => leaves inner
  | .and lhs rhs | .or lhs rhs => leaves lhs ++ leaves rhs
  | operation => [operation]

theorem Operation.mentions_leaves (command : Option String) (table : Option Span)
    (operation : Operation) :
    operation.mentions command table = operation.leaves.flatMap (mentions command table) := by
  induction operation with
  | not inner span ih | paren inner span ih => rw [mentions, leaves, ih]
  | and lhs rhs ihl ihr | or lhs rhs ihl ihr =>
      rw [mentions, leaves, List.flatMap_append, ← ihl, ← ihr]
  | _ => exact (List.flatMap_singleton _ _).symm

namespace Mention

-- Fields are read and not simply found, and each dataset that is found comes with its model.
structure Paired (mentions : List Mention) : Prop where
  field : ∀ text, .found ⟨.inputField, text⟩ ∉ mentions
  dataset : ∀ text, .found ⟨.dataset, text⟩ ∈ mentions → ∃ model object, model ≠ "" ∧ object ≠ "" ∧
    text = model ++ "." ++ object ∧ datamodel model ∈ mentions

-- Mentions that derive nothing.
structure Special (mentions : List Mention) : Prop extends Paired mentions where
  quiet : ∀ field, .derives field ∉ mentions

section

variable {first second : List Mention}

theorem Paired.append (hfirst : Paired first) (hsecond : Paired second) :
    Paired (first ++ second) where
  field text := by
    rw [List.mem_append, not_or]
    exact ⟨hfirst.field text, hsecond.field text⟩
  dataset text hmem := by
    rcases List.mem_append.1 hmem with hmem | hmem
    · obtain ⟨model, object, hmodel, hobject, htext, hpair⟩ := hfirst.dataset text hmem
      exact ⟨model, object, hmodel, hobject, htext, List.mem_append_left _ hpair⟩
    · obtain ⟨model, object, hmodel, hobject, htext, hpair⟩ := hsecond.dataset text hmem
      exact ⟨model, object, hmodel, hobject, htext, List.mem_append_right _ hpair⟩

theorem Paired.flatMap {α : Type} {items : List α} {form : α → List Mention}
    (h : ∀ item, Paired (form item)) : Paired (items.flatMap form) := by
  induction items with
  | nil => constructor <;> simp
  | cons item items ih =>
      rw [List.flatMap_cons]
      exact (h item).append ih

theorem Special.append (hfirst : Special first) (hsecond : Special second) :
    Special (first ++ second) where
  toPaired := hfirst.toPaired.append hsecond.toPaired
  quiet field := by
    rw [List.mem_append, not_or]
    exact ⟨hfirst.quiet field, hsecond.quiet field⟩

theorem Special.flatMap {α : Type} {items : List α} {form : α → List Mention}
    (h : ∀ item, Special (form item)) : Special (items.flatMap form) where
  toPaired := .flatMap fun item => (h item).toPaired
  quiet field := by
    rw [List.mem_flatMap]
    rintro ⟨item, -, hmem⟩
    exact (h item).quiet field hmem

end

-- Reading a field, or finding something other than a field or a dataset.
def IsPlain : Mention → Prop
  | .reads _ => True
  | .derives _ => False
  | .found finding => finding.category ≠ .inputField ∧ finding.category ≠ .dataset

theorem IsRead.isPlain {mention : Mention} (h : mention.IsRead) : mention.IsPlain := by
  cases mention with
  | reads field => trivial
  | derives field | found finding => exact h.elim

theorem Special.of_plain (h : ∀ mention ∈ mentions, mention.IsPlain) : Special mentions where
  field _ hmem := (h _ hmem).1 rfl
  dataset _ hmem := absurd rfl (h _ hmem).2
  quiet _ hmem := h _ hmem

theorem special_reads {α : Type} (items : List α) (name : α → String) :
    Special (items.map fun item => .reads (name item)) :=
  .of_plain (List.forall_mem_map.2 fun _ _ => trivial)

theorem special_found {α : Type} {category : Category}
    (hcategory : category ≠ .inputField ∧ category ≠ .dataset) (items : List α) (text : α → String) :
    Special (items.map fun item => .found ⟨category, text item⟩) :=
  .of_plain (List.forall_mem_map.2 fun _ _ => hcategory)

-- A model, and a dataset of it.
theorem special_model (model object : String) :
    Special (datamodel model :: dataset model object) := by
  unfold dataset
  split
  · exact .of_plain (by simp [datamodel, IsPlain])
  · next hboth =>
    rw [not_or] at hboth
    refine ⟨⟨by simp [datamodel], fun text hmem => ?_⟩, by simp [datamodel]⟩
    have htext : text = model ++ "." ++ object := by simpa [datamodel] using hmem
    exact ⟨model, object, hboth.1, hboth.2, htext, List.mem_cons_self⟩

theorem special_modelReference (reference : List Char) : Special (modelReference reference) := by
  unfold modelReference
  split
  · exact special_model _ _
  · exact .of_plain (by simp [datamodel, IsPlain])

theorem special_datasetReference (text : List Char) : Special (datasetReference text) := by
  unfold datasetReference
  split
  · exact special_model _ _
  · exact .of_plain (by simp)

end Mention

open Mention in
theorem Operation.special_comparison (field : Name) (value : Expr) :
    Special (comparisonMentions field value) := by
  unfold comparisonMentions
  dsimp only
  split
  · exact .of_plain (by simp [IsPlain])
  · exact .of_plain (by simp [IsPlain])
  · exact .flatMap special_modelReference
  · exact .of_plain (by simp [IsPlain])

open Mention in
-- What a command makes of its operands derives nothing.
theorem Query.special_command (query : Query) (command : Option String)
    (operations : List Operation) : Special (query.commandMentions command operations) := by
  unfold commandMentions
  split
  · exact (special_found (by decide) _ _).append (special_reads _ _)
  · exact special_reads _ _
  · exact special_found (by decide) _ _
  · unfold datamodelMentions
    split
    · dsimp only
      rw [List.singleton_append]
      exact (special_model _ _).append (special_reads _ fun name => name)
    · exact .of_plain (by simp)
  · unfold tstatsMentions
    refine .flatMap fun operation => ?_
    refine (((Special.flatMap special_modelReference).append (special_datasetReference _)).append
      ?_).append (special_reads _ _)
    split <;> exact .of_plain (by simp [IsPlain])
  · exact .flatMap fun operation => special_datasetReference _
  · unfold pivotMentions
    split
    · dsimp only
      rw [List.singleton_append]
      exact special_model _ _
    · exact .of_plain (by simp)
  · exact .of_plain (by simp)

open Mention in
theorem Operation.paired_mentions (command : Option String) (table : Option Span)
    (operation : Operation) : Paired (operation.mentions command table) := by
  have hread : ∀ {mentions : List Mention}, (∀ mention ∈ mentions, mention.IsRead) →
      Paired mentions := fun hall => (Special.of_plain fun _ hmem => (hall _ hmem).isPlain).toPaired
  have hderives : ∀ names : List Name, Paired (names.map fun name => .derives name.text) :=
    fun names => by constructor <;> simp
  induction operation with
  | not inner span ih | paren inner span ih => exact ih
  | and lhs rhs ihl ihr | or lhs rhs ihl ihr => exact ihl.append ihr
  | compare target op value span =>
      rw [mentions]
      refine Paired.append ?_ (hread value.callReads_isRead)
      split
      · exact (hderives [target]).append (hread value.references_isRead)
      · exact (special_comparison target value).toPaired
  | grouping names span => exact (special_reads names fun name => name.text).toPaired
  | rename expr target span =>
      exact (((special_reads _ fun name : Name => name.text).toPaired.append
        (hderives [target])).append (hread expr.callReads_isRead))
  | output inputs mode outputs span =>
      exact (((special_reads _ fun name : Name => name.text).toPaired.append
        (hderives outputs)).append (hread (exprsCallReads_isRead inputs)))
  | like expr pattern span | bare expr span => exact hread expr.callReads_isRead
  | within expr items span => exact hread (exprsCallReads_isRead (expr :: items))

open Mention in
theorem Query.paired_stage (query : Query) (command : Option String)
    (operations : List Operation) : Paired (query.stageMentions command operations) :=
  (query.special_command command operations).toPaired.append
    (.flatMap fun operation => operation.paired_mentions command _)

end SearchPipeline
