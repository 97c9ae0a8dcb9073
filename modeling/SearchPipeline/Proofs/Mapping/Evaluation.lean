import SearchPipeline.Mapping.Evaluate

namespace SearchPipeline

-- A context knows the keys of another one, and under each of them all the texts that the other
-- holds there.
def Context.Extends (other context : Context) : Prop :=
  ∀ (key : String) (value : ContextValue), context[key]? = some value →
    ∃ more, other[key]? = some more ∧ ∀ text ∈ value.values, text ∈ more.values

namespace Mapping

namespace Condition

-- What a condition asks for, and what the conditions inside it ask for, at any depth, cannot be
-- lost when more becomes known: neither that something is missing, nor what the value of a field is
-- as a whole.
inductive Lasting : Condition → Prop where
  | intro {condition : Condition} : condition.operator? ≠ some .notExists →
      (condition.type? = some .fieldValue →
        condition.operator? ≠ some .equals ∧ condition.operator? ≠ some .contains) →
      (∀ child ∈ condition.children, Lasting child) → Lasting condition

section Extended

variable {context other : Context} {condition : Condition}

theorem any_of_subset {value more : ContextValue} {test : String → Bool}
    (hmore : ∀ text ∈ value.values, text ∈ more.values) (h : value.any test = true) :
    more.any test = true := by
  obtain ⟨text, hmem, htest⟩ := List.any_eq_true.1 h
  exact List.any_eq_true.2 ⟨text, hmore text hmem, htest⟩

theorem existsHolds_extended (hextends : other.Extends context)
    (hpresent : condition.operator? ≠ some .notExists)
    (h : condition.existsHolds context = true) : condition.existsHolds other = true := by
  unfold existsHolds at h ⊢
  split at h
  · rw [Std.TreeMap.contains_eq_isSome_getElem?, Option.isSome_iff_exists] at h
    obtain ⟨value, hvalue⟩ := h
    obtain ⟨more, hmore, -⟩ := hextends _ value hvalue
    rw [Std.TreeMap.contains_eq_isSome_getElem?, hmore]
    rfl
  · next hoperator => exact absurd hoperator hpresent
  · cases h

end Extended

variable [Pattern.Engine]

section Holds

variable {context : Context}

theorem allHold_eq_all (children : List Condition) :
    allHold context children = children.all (holds context) := by
  induction children with
  | nil => rfl
  | cons first rest ih => rw [allHold, ih, List.all_cons]

theorem anyHolds_eq_any (children : List Condition) :
    anyHolds context children = children.any (holds context) := by
  induction children with
  | nil => rfl
  | cons first rest ih => rw [anyHolds, ih, List.any_cons]

-- What a condition of each type asks for.
theorem holds_eq (context : Context) (condition : Condition) : condition.holds context =
    match condition.type? with
    | none => false
    | some .fieldExists => condition.existsHolds context
    | some .fieldValue => condition.fieldHolds context
    | some .sourcetype => condition.attributeHolds ConditionType.sourcetype.name context
    | some .source => condition.attributeHolds ConditionType.source.name context
    | some .combination =>
      match condition.operator? with
      | some .and => condition.children.all (holds context)
      | some .or => condition.children.any (holds context)
      | _ => false := by
  obtain ⟨type, field, operator, value, children⟩ := condition
  rw [holds, allHold_eq_all, anyHolds_eq_any]
  rfl

end Holds

section Patterns

variable {context other : Context} {condition : Condition}

theorem matchesPattern_of_subset {value more : ContextValue}
    (hmore : ∀ text ∈ value.values, text ∈ more.values)
    (h : condition.matchesPattern value = true) : condition.matchesPattern more = true := by
  unfold matchesPattern at h ⊢
  split at h
  · exact any_of_subset hmore h
  · cases h

theorem fieldHolds_extended (hextends : other.Extends context)
    (hequals : condition.operator? ≠ some .equals)
    (hcontains : condition.operator? ≠ some .contains)
    (h : condition.fieldHolds context = true) : condition.fieldHolds other = true := by
  unfold fieldHolds at h
  split at h
  · cases h
  next value hvalue =>
  obtain ⟨more, hmore, hsubset⟩ := hextends _ value hvalue
  split at h
  · next hoperator => exact absurd hoperator hequals
  · next hoperator => exact absurd hoperator hcontains
  · next hoperator =>
      simp only [fieldHolds, hmore, hoperator]
      exact matchesPattern_of_subset hsubset h
  · cases h

theorem attributeHolds_extended {key : String} (hextends : other.Extends context)
    (h : condition.attributeHolds key context = true) :
    condition.attributeHolds key other = true := by
  unfold attributeHolds at h
  split at h
  · next value expected hvalue hexpected =>
      obtain ⟨more, hmore, hsubset⟩ := hextends _ value hvalue
      unfold attributeHolds
      rw [hmore, hexpected]
      split at h
      · exact any_of_subset hsubset h
      · exact any_of_subset hsubset h
      · exact matchesPattern_of_subset hsubset h
      · cases h
  · cases h

-- A lasting condition that holds goes on holding.
theorem holds_extended (hextends : other.Extends context) (hlasting : condition.Lasting)
    (h : condition.holds context = true) : condition.holds other = true := by
  induction hlasting with
  | @intro condition hpresent hwhole _ ih =>
      rw [holds_eq] at h ⊢
      split at h
      · cases h
      · exact existsHolds_extended hextends hpresent h
      · next htype =>
          obtain ⟨hequals, hcontains⟩ := hwhole htype
          exact fieldHolds_extended hextends hequals hcontains h
      · exact attributeHolds_extended hextends h
      · exact attributeHolds_extended hextends h
      · split at h
        · rw [List.all_eq_true] at h ⊢
          exact fun child hmem => ih child hmem (h child hmem)
        · rw [List.any_eq_true] at h ⊢
          obtain ⟨child, hmem, hholds⟩ := h
          exact ⟨child, hmem, ih child hmem hholds⟩
        · cases h

end Patterns

end Condition

section Rules

variable [Pattern.Engine] {context other : Context}

theorem Rule.applies_extended {rule : Rule} (hextends : other.Extends context)
    (hlasting : rule.enabled = true → ∀ condition ∈ rule.conditions, condition.Lasting)
    (h : rule.applies context = true) : rule.applies other = true := by
  obtain ⟨henabled, hconditions⟩ := Bool.and_eq_true_iff.1 h
  rw [List.all_eq_true] at hconditions
  refine Bool.and_eq_true_iff.2 ⟨henabled, List.all_eq_true.2 fun condition hmem => ?_⟩
  exact Condition.holds_extended hextends (hlasting henabled condition hmem)
    (hconditions condition hmem)

-- Rules that go on applying keep their mappings in order, whatever other rules come in between.
theorem mappings_sublist {rules : List Rule}
    (happlies : ∀ rule ∈ rules, rule.applies context = true → rule.applies other = true) :
    ((rules.filter (Rule.applies context)).flatMap (·.mappings)).Sublist
      ((rules.filter (Rule.applies other)).flatMap (·.mappings)) := by
  induction rules with
  | nil => exact .slnil
  | cons rule rest ih =>
      have hrest := ih fun rule hmem => happlies rule (.tail _ hmem)
      by_cases hrule : rule.applies context = true
      · have hother := happlies rule (.head _) hrule
        rw [List.filter_cons_of_pos hrule, List.filter_cons_of_pos hother, List.flatMap_cons,
          List.flatMap_cons]
        exact hrest.append_left rule.mappings
      · rw [List.filter_cons_of_neg hrule]
        by_cases hother : rule.applies other = true
        · rw [List.filter_cons_of_pos hother, List.flatMap_cons]
          exact hrest.trans (List.sublist_append_right _ _)
        · rwa [List.filter_cons_of_neg hother]

-- Knowing more never switches a rule off. If no enabled rule asks, at any depth, for what is
-- missing or for what the value of a field is as a whole, the mappings that apply in a context apply
-- in every context that extends it, in the same order.
theorem Config.evaluate_extended (config : Config) (context other : Context)
    (hextends : other.Extends context)
    (hlasting : ∀ rule ∈ config.rules, rule.enabled = true → ∀ condition ∈ rule.conditions,
      condition.Lasting) :
    (config.evaluate context).Sublist (config.evaluate other) := by
  have hrules := mappings_sublist fun rule hmem =>
    Rule.applies_extended hextends (hlasting rule hmem)
  exact hrules.append_left config.mappings

end Rules

section Prefixes

attribute [local instance] Pattern.Engine.prefixes

-- Of three rules, the first asks for a host and a source, the second for a user on a host or a
-- source type, and the third, which is switched off, for the lack of a host.
def Config.threefold : Config :=
  { version := "1"
    rules := [
      ⟨"1", "", "", [.combination .and
        [.fieldValue "host" .regex (.string "^h"), .source .contains "log"]], [⟨"a", "b"⟩], 0, true⟩,
      ⟨"2", "", "", [.combination .or
        [.combination .and [.fieldExists "user" true, .fieldExists "host" true],
          .sourcetype .equals "web"]], [⟨"c", "d"⟩], 0, true⟩,
      ⟨"3", "", "", [.fieldExists "host" false], [⟨"e", "f"⟩], 0, false⟩] }

theorem Config.evaluate_extended_threefold : ∃ context other : Context,
    context = (∅ : Context).insert "sourcetype" (.single "web") ∧
    other = ((context.insert "sourcetype" (.multiple ["mail", "web"])).insert
      "host" (.single "h1")).insert "source" (.multiple ["a.log"]) ∧
    threefold.evaluate context = [⟨"c", "d"⟩] ∧
    threefold.evaluate other = [⟨"a", "b"⟩, ⟨"c", "d"⟩] ∧
    (threefold.evaluate context).Sublist (threefold.evaluate other) := by
  refine ⟨_, _, rfl, rfl, by decide +kernel, by decide +kernel,
    threefold.evaluate_extended _ _ ?_ ?_⟩
  · intro key value hvalue
    obtain ⟨rfl, rfl⟩ : "sourcetype" = key ∧ .single "web" = value := by
      simpa [Std.TreeMap.getElem?_insert, Std.compare_eq_iff_eq] using hvalue
    exact ⟨.multiple ["mail", "web"], by decide +kernel, by simp [ContextValue.values]⟩
  · have hhost : (Condition.fieldValue "host" .regex (.string "^h")).Lasting :=
      .intro (by decide) (by decide) nofun
    have hsource : (Condition.source .contains "log").Lasting :=
      .intro (by decide) (by decide) nofun
    have huser : (Condition.fieldExists "user" true).Lasting :=
      .intro (by decide) (by decide) nofun
    have hhost' : (Condition.fieldExists "host" true).Lasting :=
      .intro (by decide) (by decide) nofun
    have hboth : (Condition.combination .and
        [.fieldExists "user" true, .fieldExists "host" true]).Lasting :=
      .intro (by decide) (by decide) (List.forall_mem_cons.2 ⟨huser,
        List.forall_mem_cons.2 ⟨hhost', nofun⟩⟩)
    have hsourcetype : (Condition.sourcetype .equals "web").Lasting :=
      .intro (by decide) (by decide) nofun
    simp only [threefold, List.forall_mem_cons]
    refine ⟨fun _ => ⟨.intro (by decide) (by decide) ?_, nofun⟩,
      fun _ => ⟨.intro (by decide) (by decide) ?_, nofun⟩, nofun, nofun⟩
    · exact List.forall_mem_cons.2 ⟨hhost, List.forall_mem_cons.2 ⟨hsource, nofun⟩⟩
    · exact List.forall_mem_cons.2 ⟨hboth, List.forall_mem_cons.2 ⟨hsourcetype, nofun⟩⟩

end Prefixes

end Mapping

end SearchPipeline
