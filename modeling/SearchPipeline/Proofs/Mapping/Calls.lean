import SearchPipeline.Proofs.Mapping.Evaluation
import SearchPipeline.Proofs.Mapping.WellFormed

namespace SearchPipeline.Mapping

-- A condition that is asked, or its pattern that is matched.
inductive Call where
  | condition (condition : Condition)
  | pattern (condition : Condition)

section Traced

variable [Pattern.Engine]

-- The calls that answer no because there is nothing to ask.
inductive Call.Fails : Call → Prop where
  | unknownType {condition : Condition} : condition.type? = none → Fails (.condition condition)
  | unknownOperator {condition : Condition} : condition.operator ≠ "" →
      condition.operator? = none → Fails (.condition condition)
  | noConnective {condition : Condition} : condition.type? = some .combination →
      condition.operator? ≠ some .and → condition.operator? ≠ some .or →
      Fails (.condition condition)
  | noPattern {condition : Condition} {text : String} : condition.text? = some text →
      ¬Compiles text → Fails (.pattern condition)

namespace Condition

def fieldTraced (condition : Condition) (context : Context) : Bool × List Call :=
  match context[condition.field]? with
  | none => (false, [])
  | some value =>
    match condition.operator? with
    | some .equals => (condition.value.bind ContextValue.ofJson? == some value, [])
    | some .contains =>
      match value.asSingle?, condition.text? with
      | some text, some part => (isInside part text, [])
      | _, _ => (false, [])
    | some .regex => (condition.matchesPattern value, [.pattern condition])
    | _ => (false, [])

def attributeTraced (condition : Condition) (key : String) (context : Context) :
    Bool × List Call :=
  match context[key]?, condition.text? with
  | some value, some expected =>
    match condition.operator? with
    | some .equals => (value.any (· == expected), [])
    | some .contains => (value.any (isInside expected), [])
    | some .regex => (condition.matchesPattern value, [.pattern condition])
    | _ => (false, [])
  | _, _ => (false, [])

mutual

-- The answer of a condition, with the calls made for it in their order.
def traced (context : Context) : Condition → Bool × List Call
  | .mk type field operator value children =>
      let condition := Condition.mk type field operator value children
      let (answer, calls) : Bool × List Call :=
        match condition.type? with
        | none => (false, [])
        | some .fieldExists => (condition.existsHolds context, [])
        | some .fieldValue => condition.fieldTraced context
        | some .sourcetype => condition.attributeTraced ConditionType.sourcetype.name context
        | some .source => condition.attributeTraced ConditionType.source.name context
        | some .combination =>
          match condition.operator? with
          | some .and => askUntil context false children
          | some .or => askUntil context true children
          | _ => (false, [])
      (answer, .condition condition :: calls)

-- One condition is asked after the other, until the answer to one of them settles it for all.
def askUntil (context : Context) (settling : Bool) : List Condition → Bool × List Call
  | [] => (!settling, [])
  | first :: rest =>
    let (answer, calls) := traced context first
    if answer = settling then (answer, calls)
    else
      let (others, more) := askUntil context settling rest
      (others, calls ++ more)

end

section Calls

variable {context : Context}

theorem traced_eq (context : Context) (condition : Condition) :
    condition.traced context =
      let (answer, calls) : Bool × List Call :=
        match condition.type? with
        | none => (false, [])
        | some .fieldExists => (condition.existsHolds context, [])
        | some .fieldValue => condition.fieldTraced context
        | some .sourcetype => condition.attributeTraced ConditionType.sourcetype.name context
        | some .source => condition.attributeTraced ConditionType.source.name context
        | some .combination =>
          match condition.operator? with
          | some .and => askUntil context false condition.children
          | some .or => askUntil context true condition.children
          | _ => (false, [])
      (answer, .condition condition :: calls) := by
  obtain ⟨type, field, operator, value, children⟩ := condition
  rw [traced]
  rfl

theorem fieldTraced_fst (condition : Condition) :
    (condition.fieldTraced context).1 = condition.fieldHolds context := by
  unfold fieldTraced fieldHolds
  cases context[condition.field]? with
  | none => rfl
  | some value =>
      rcases condition.operator? with _ | operator
      · rfl
      cases operator with
      | contains =>
          dsimp only
          cases value.asSingle? <;> cases condition.text? <;> rfl
      | _ => rfl

theorem attributeTraced_fst (condition : Condition) (key : String) :
    (condition.attributeTraced key context).1 = condition.attributeHolds key context := by
  unfold attributeTraced attributeHolds
  rcases context[key]? with _ | value
  · rfl
  rcases condition.text? with _ | expected
  · rfl
  rcases condition.operator? with _ | operator
  · rfl
  cases operator <;> rfl

theorem askUntil_fst {settling : Bool} {children : List Condition}
    (hanswers : ∀ child ∈ children, (child.traced context).1 = child.holds context) :
    (askUntil context settling children).1 =
      if settling then children.any (holds context) else children.all (holds context) := by
  induction children with
  | nil => cases settling <;> rfl
  | cons first rest ih =>
      obtain ⟨hfirst, hrest⟩ := List.forall_mem_cons.1 hanswers
      have hcons : (askUntil context settling (first :: rest)).1 =
          if (first.traced context).1 = settling then (first.traced context).1
          else (askUntil context settling rest).1 := by
        rw [askUntil, apply_ite Prod.fst]
      rw [hcons, hfirst, ih hrest, List.any_cons, List.all_cons]
      cases first.holds context <;> cases settling <;> rfl

theorem traced_fst (condition : Condition) :
    (condition.traced context).1 = condition.holds context := by
  induction condition using induct with
  | step condition ih =>
      rw [traced_eq, holds_eq]
      rcases condition.type? with _ | type
      · rfl
      cases type with
      | fieldExists => rfl
      | fieldValue => exact fieldTraced_fst condition
      | sourcetype | source => exact attributeTraced_fst condition _
      | combination =>
          rcases condition.operator? with _ | operator
          · rfl
          cases operator with
          | and | or => exact askUntil_fst ih
          | _ => rfl

-- Nothing but the pattern of a condition under the operator regex is matched.
theorem mem_fieldTraced {condition : Condition} {call : Call}
    (h : call ∈ (condition.fieldTraced context).2) :
    call = .pattern condition ∧ condition.operator? = some .regex := by
  unfold fieldTraced at h
  split at h
  · cases h
  split at h
  · cases h
  · split at h <;> cases h
  · next hregex => exact ⟨List.mem_singleton.1 h, hregex⟩
  · cases h

theorem mem_attributeTraced {condition : Condition} {key : String} {call : Call}
    (h : call ∈ (condition.attributeTraced key context).2) :
    call = .pattern condition ∧ condition.operator? = some .regex := by
  unfold attributeTraced at h
  split at h
  · split at h
    · cases h
    · cases h
    · next hregex => exact ⟨List.mem_singleton.1 h, hregex⟩
    · cases h
  · cases h

theorem mem_askUntil {settling : Bool} {children : List Condition} {call : Call}
    (h : call ∈ (askUntil context settling children).2) :
    ∃ child ∈ children, call ∈ (child.traced context).2 := by
  induction children with
  | nil => cases h
  | cons first rest ih =>
      rw [askUntil, apply_ite Prod.snd] at h
      split at h
      · exact ⟨first, .head _, h⟩
      · rcases List.mem_append.1 h with hcalls | hmore
        · exact ⟨first, .head _, hcalls⟩
        · obtain ⟨child, hmem, hchild⟩ := ih hmore
          exact ⟨child, .tail _ hmem, hchild⟩

-- The calls made for a condition: it is asked, its pattern is matched, or a call is made for a
-- condition that it combines.
theorem mem_traced {condition : Condition} {call : Call} (h : call ∈ (condition.traced context).2) :
    call = .condition condition ∨
      call = .pattern condition ∧ condition.operator? = some .regex ∨
      condition.type? = some .combination ∧
        ∃ child ∈ condition.children, call ∈ (child.traced context).2 := by
  rw [traced_eq] at h
  rcases List.mem_cons.1 h with hself | h
  · exact .inl hself
  right
  split at h
  · cases h
  · cases h
  · exact .inl (mem_fieldTraced h)
  · exact .inl (mem_attributeTraced h)
  · exact .inl (mem_attributeTraced h)
  · next htype =>
      refine .inr ⟨htype, ?_⟩
      split at h
      · exact mem_askUntil h
      · exact mem_askUntil h
      · cases h

theorem Sound.not_fails {condition : Condition} {type : ConditionType}
    (hsound : condition.Sound type) : ¬(Call.condition condition).Fails := by
  rintro (hunknown | ⟨hwritten, hunknown⟩ | ⟨hcombination, hand, hor⟩)
  · rw [hsound.known] at hunknown
    cases hunknown
  · rcases hsound.operator with hempty | ⟨operator, hknown⟩
    · exact hwritten hempty
    · rw [hunknown] at hknown
      cases hknown
  · obtain rfl : type = .combination := Option.some.inj (hsound.known.symm.trans hcombination)
    rcases hsound.connective rfl with hconnective | hconnective
    · exact hand hconnective
    · exact hor hconnective

-- No call made for a well-formed condition fails, whatever the context.
theorem WellFormed.not_fails {condition : Condition} (hwell : condition.WellFormed) {call : Call}
    (h : call ∈ (condition.traced context).2) : ¬call.Fails := by
  induction hwell with
  | @intro condition type hsound _ ih =>
      rcases mem_traced h with rfl | ⟨rfl, hregex⟩ | ⟨htype, child, hmem, hchild⟩
      · exact hsound.not_fails
      · intro hfails
        cases hfails with
        | noPattern htext hnone =>
            exact hnone (hsound.pattern hregex _ (text?_eq_some.1 htext))
      · have hcombination : type = .combination :=
          Option.some.inj (hsound.known.symm.trans htype)
        exact ih hcombination child hmem hchild

end Calls

end Condition

section Rules

variable {context : Context}

-- Whether a rule applies. The conditions of a rule that is switched off are not asked.
def Rule.traced (context : Context) (rule : Rule) : Bool × List Call :=
  if rule.enabled then Condition.askUntil context false rule.conditions else (false, [])

-- The mappings of the rules that apply, with the calls made for all of them.
def rulesTraced (context : Context) : List Rule → List FieldMapping × List Call
  | [] => ([], [])
  | rule :: rest =>
    let (applies, calls) := rule.traced context
    let (mappings, more) := rulesTraced context rest
    (if applies then rule.mappings ++ mappings else mappings, calls ++ more)

def Config.traced (config : Config) (context : Context) : List FieldMapping × List Call :=
  let (mappings, calls) := rulesTraced context config.rules
  (config.mappings ++ mappings, calls)

theorem Rule.traced_fst (rule : Rule) : (rule.traced context).1 = rule.applies context := by
  unfold Rule.traced Rule.applies
  cases rule.enabled with
  | false => rfl
  | true => exact Condition.askUntil_fst fun condition _ => condition.traced_fst

theorem rulesTraced_fst (rules : List Rule) : (rulesTraced context rules).1 =
    (rules.filter (Rule.applies context)).flatMap (·.mappings) := by
  induction rules with
  | nil => rfl
  | cons rule rest ih =>
      have hfirst : (rulesTraced context (rule :: rest)).1 =
          if (rule.traced context).1 then rule.mappings ++ (rulesTraced context rest).1
          else (rulesTraced context rest).1 := rfl
      rw [hfirst, rule.traced_fst, ih, List.filter_cons]
      split <;> rfl

theorem mem_rulesTraced {rules : List Rule} {call : Call}
    (h : call ∈ (rulesTraced context rules).2) :
    ∃ rule ∈ rules, ∃ condition ∈ rule.conditions, call ∈ (condition.traced context).2 := by
  induction rules with
  | nil => cases h
  | cons rule rest ih =>
      have happend : call ∈ (rule.traced context).2 ++ (rulesTraced context rest).2 := h
      rcases List.mem_append.1 happend with hcalls | hmore
      · unfold Rule.traced at hcalls
        split at hcalls
        · exact ⟨rule, .head _, Condition.mem_askUntil hcalls⟩
        · cases hcalls
      · obtain ⟨rule, hmem, hcondition⟩ := ih hmore
        exact ⟨rule, .tail _ hmem, hcondition⟩

-- Evaluating a configuration without violations never fails: no condition that is asked has an
-- unknown type, an unknown operator, or children under no connective, and every pattern that is
-- matched is one.
theorem Config.evaluates_without_failure (config : Config) (context : Context)
    (hvalid : config.isValid = true) :
    (config.traced context).1 = config.evaluate context ∧
      ∀ call ∈ (config.traced context).2, ¬call.Fails := by
  refine ⟨congrArg (config.mappings ++ ·) (rulesTraced_fst config.rules), fun call hcall => ?_⟩
  obtain ⟨rule, hrule, condition, hcondition, h⟩ := mem_rulesTraced hcall
  have hwell := config.isValid_iff.1 hvalid
  exact ((hwell.rules rule hrule).conditions condition hcondition).not_fails h

end Rules

end Traced

section Prefixes

attribute [local instance] Pattern.Engine.prefixes

-- One rule, with a pattern inside a combination inside another one.
def Config.nested : Config :=
  { version := "1"
    rules := [⟨"1", "", "", [.combination .and [.fieldExists "host" true,
        .combination .or [.fieldValue "host" .regex (.string "^h"), .source .equals "x"]]],
      [⟨"a", "b"⟩], 0, true⟩] }

theorem Config.evaluates_without_failure_nested : ∃ context : Context,
    context = (∅ : Context).insert "host" (.single "h1") ∧ nested.isValid = true ∧
    (nested.traced context).2.length = 5 ∧
    (nested.traced context).1 = nested.evaluate context ∧
    ∀ call ∈ (nested.traced context).2, ¬call.Fails := by
  have hvalid : nested.isValid = true := by decide +kernel
  exact ⟨_, rfl, hvalid, by decide +kernel, nested.evaluates_without_failure _ hvalid⟩

end Prefixes

end SearchPipeline.Mapping
