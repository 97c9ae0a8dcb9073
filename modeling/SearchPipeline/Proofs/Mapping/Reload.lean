import SearchPipeline.Proofs.Mapping.History
import SearchPipeline.Proofs.Rename.Substitution

namespace SearchPipeline.Mapping

section Loads

variable [Pattern.Engine]

-- Rules that leave a name alone leave it to the mappings that always apply.
theorem Config.lastTarget?_evaluate {config : Config} {context : Context} {source : String}
    (hrules : ∀ rule ∈ config.rules, rule.applies context = true →
      ∀ mapping ∈ rule.mappings, mapping.source ≠ source) :
    lastTarget? (config.evaluate context) source = lastTarget? config.mappings source := by
  have hnone : lastTarget? ((config.rules.filter (Rule.applies context)).flatMap (·.mappings))
      source = none := by
    rw [lastTarget?_eq_none_iff]
    intro mapping hmem
    obtain ⟨rule, hrule, hmapping⟩ := List.mem_flatMap.1 hmem
    obtain ⟨hmem, happlies⟩ := List.mem_filter.1 hrule
    exact hrules rule hmem happlies mapping hmapping
  rw [evaluate, lastTarget?_append, hnone, Option.none_or]

namespace Session

-- The target that the configuration has for a name in every context.
def baseTarget? (session : Session) (source : String) : Option String :=
  session.config.bind fun config => lastTarget? config.mappings source

theorem getElem?_effective_load {session : Session} {context : Context} {source : String}
    (hrules : ∀ config, session.config = some config → ∀ rule ∈ config.rules,
      rule.applies context = true → ∀ mapping ∈ rule.mappings, mapping.source ≠ source)
    (mappings : List FieldMapping) : ((session.load mappings).effective context)[source]? =
      (session.baseTarget? source).or ((lastTarget? mappings source).or session.table[source]?) := by
  rw [getElem?_effective, load, getElem?_overlay, baseTarget?]
  cases hconfig : session.config with
  | none => rfl
  | some config =>
      congr 1
      exact config.lastTarget?_evaluate (hrules config hconfig)

-- Mappings that are loaded take effect. For a name that no rule in force maps, the last target that
-- was loaded counts, or that of the configuration if it always maps the name, and mapping a query
-- puts this target in the place of the name in every field position.
theorem load_renames (session : Session) (mappings : List FieldMapping) (context : Context)
    (source : String) (hsource : ∃ mapping ∈ mappings, mapping.source = source)
    (hrules : ∀ config, session.config = some config → ∀ rule ∈ config.rules,
      rule.applies context = true → ∀ mapping ∈ rule.mappings, mapping.source ≠ source) :
    ∃ target, (session.baseTarget? source).or (lastTarget? mappings source) = some target ∧
      ((session.load mappings).effective context)[source]? = some target ∧
      ∀ text query, Query.parse text = .ok query →
        (session.load mappings).mapIn context text = .ok (Text.trimmed (String.join
          (query.tokens.dropLast.zipIdx.map fun entry => query.substituted
            ((session.load mappings).effective context) entry.2 entry.1))) ∧
        ∀ index token, query.FieldAt index → token.text = source →
          query.substituted ((session.load mappings).effective context) index token = target := by
  obtain ⟨loaded, hloaded⟩ : ∃ loaded, lastTarget? mappings source = some loaded := by
    rw [← Option.ne_none_iff_exists', Ne, lastTarget?_eq_none_iff]
    obtain ⟨mapping, hmem, hsame⟩ := hsource
    exact fun hnone => hnone mapping hmem hsame
  have heffective := getElem?_effective_load hrules mappings
  rw [hloaded, Option.some_or] at heffective
  obtain ⟨target, htarget⟩ : ∃ target, (session.baseTarget? source).or (some loaded) = some target := by
    cases session.baseTarget? source with
    | none => exact ⟨loaded, rfl⟩
    | some base => exact ⟨base, rfl⟩
  rw [htarget] at heffective
  refine ⟨target, by rw [hloaded, htarget], heffective, fun text query hparse => ⟨?_, ?_⟩⟩
  · have hrename := renameFields_of_parse ((session.load mappings).effective context) hparse
    rwa [Query.render_replacements hparse] at hrename
  · intro index token hfield htext
    rw [Query.substituted, if_pos hfield, htext, heffective, Option.getD_some]

end Session

end Loads

namespace Session

section Prefixes

attribute [local instance] Pattern.Engine.prefixes

-- `b` is always mapped, and `a` by a rule that does not apply.
def besideRule : Session :=
  run [.configure
    { version := "1", mappings := [⟨"b", "c"⟩],
      rules := [⟨"r", "", "", [.sourcetype .equals "web"], [⟨"a", "x"⟩], 0, true⟩] }]

-- The mappings loaded behind it.
def twoTargets : List FieldMapping := [⟨"a", "y"⟩, ⟨"a", "z"⟩]

theorem load_renames_beside_rule : ∃ target query,
    Query.parse "search a=1 b=2" = .ok query ∧
    (besideRule.baseTarget? "a").or (lastTarget? twoTargets "a") = some target ∧
    ((besideRule.load twoTargets).effective ∅)["a"]? = some target ∧ target = "z" ∧
    (besideRule.load twoTargets).mapIn ∅ "search a=1 b=2" =
      .ok (Text.trimmed (String.join (query.tokens.dropLast.zipIdx.map fun entry =>
        query.substituted ((besideRule.load twoTargets).effective ∅) entry.2 entry.1))) := by
  obtain ⟨query, hparse, -⟩ := Query.parse_of_any
    (show (Query.parse "search a=1 b=2").toOption.any (fun _ => true) = true by decide +kernel)
  obtain ⟨target, htarget, heffective, hmaps⟩ := load_renames besideRule twoTargets ∅ "a"
    ⟨⟨"a", "y"⟩, by simp [twoTargets], rfl⟩ (by
      intro config hconfig rule hrule happlies
      cases hconfig
      cases List.mem_singleton.1 hrule
      revert happlies
      decide +kernel)
  have hsame : some "z" = some target := by
    rw [← htarget]
    decide +kernel
  exact ⟨target, query, hparse, htarget, heffective, (Option.some.inj hsame).symm,
    (hmaps _ query hparse).1⟩

-- What a configuration always maps stays hidden from what is loaded behind it.
theorem load_hidden_by_base : ∃ session,
    session = run [.configure { version := "1", mappings := [⟨"a", "b"⟩] }] ∧
    (∀ config, session.config = some config → config.rules = []) ∧
    lastTarget? [⟨"a", "c"⟩] "a" = some "c" ∧
    ((session.load [⟨"a", "c"⟩]).effective ∅)["a"]? = some "b" ∧
    ((session.load [⟨"a", "c"⟩]).mapIn ∅ "search a=1").toOption = some "search b=1" := by
  refine ⟨_, rfl, ?_, ?_, ?_, ?_⟩
  · rintro config ⟨⟩
    rfl
  · decide +kernel
  · decide +kernel
  · decide +kernel

end Prefixes

end Session

end SearchPipeline.Mapping
