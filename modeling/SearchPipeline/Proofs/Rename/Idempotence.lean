import SearchPipeline.Proofs.Rename.Reparse

namespace SearchPipeline

open Grammar

section Reads

variable {r : Relabel} {command : Option String} {table : Option Span} {name : Name}

theorem Expr.relabel_eq_name {expr : Expr} (h : expr.relabel r = .value (.name name)) :
    ∃ old, expr = .value (.name old) ∧ name = old.relabel r := by
  cases expr with
  | value v =>
      simp only [Expr.relabel, Expr.value.injEq] at h
      cases v with
      | name old =>
          simp only [Value.relabel, Value.name.injEq] at h
          exact ⟨old, rfl, h.symm⟩
      | _ => simp [Value.relabel] at h
  | _ => simp [Expr.relabel] at h

theorem Operation.reads_of_relabel {operation : Operation}
    (h : (operation.relabel r).Reads command (table.map r.place) name) :
    ∃ old, operation.Reads command table old ∧ name = old.relabel r := by
  induction operation with
  | compare field op value span =>
      cases h with
      | compared heval => exact ⟨field, .compared heval, rfl⟩
  | grouping names span =>
      cases h with
      | grouped hname =>
          obtain ⟨old, hold, rfl⟩ := List.mem_map.1 hname
          exact ⟨old, .grouped hold, rfl⟩
  | rename expr target span =>
      generalize hnew : (Operation.rename expr target span).relabel r = new at h
      cases h with
      | aliased =>
          simp only [Operation.relabel, Operation.rename.injEq] at hnew
          obtain ⟨old, rfl, rfl⟩ := Expr.relabel_eq_name hnew.1
          exact ⟨old, .aliased, rfl⟩
      | _ => simp [Operation.relabel] at hnew
  | output inputs mode outputs span =>
      cases h with
      | input hinput htable =>
          obtain ⟨expr, hexpr, hnew⟩ := List.mem_map.1 hinput
          obtain ⟨old, rfl, rfl⟩ := Expr.relabel_eq_name hnew
          refine ⟨old, .input hexpr ?_, rfl⟩
          rintro rfl
          exact htable rfl
  | bare expr span =>
      generalize hnew : (Operation.bare expr span).relabel r = new at h
      cases h with
      | listed hfields huse =>
          simp only [Operation.relabel, Operation.bare.injEq] at hnew
          obtain ⟨old, rfl, rfl⟩ := Expr.relabel_eq_name hnew.1
          exact ⟨old, .listed hfields huse, rfl⟩
      | _ => simp [Operation.relabel] at hnew
  | not inner span ih =>
      cases h with
      | not h =>
          obtain ⟨old, hold, hname⟩ := ih h
          exact ⟨old, .not hold, hname⟩
  | paren inner span ih =>
      cases h with
      | paren h =>
          obtain ⟨old, hold, hname⟩ := ih h
          exact ⟨old, .paren hold, hname⟩
  | and lhs rhs ihl ihr =>
      cases h with
      | andLeft h =>
          obtain ⟨old, hold, hname⟩ := ihl h
          exact ⟨old, .andLeft hold, hname⟩
      | andRight h =>
          obtain ⟨old, hold, hname⟩ := ihr h
          exact ⟨old, .andRight hold, hname⟩
  | or lhs rhs ihl ihr =>
      cases h with
      | orLeft h =>
          obtain ⟨old, hold, hname⟩ := ihl h
          exact ⟨old, .orLeft hold, hname⟩
      | orRight h =>
          obtain ⟨old, hold, hname⟩ := ihr h
          exact ⟨old, .orRight hold, hname⟩
  | like | within => cases h

theorem Stage.reads_of_relabel (hjoins : r.Joins) {stage : Stage}
    (h : (stage.relabel r).Reads name) : ∃ old, stage.Reads old ∧ name = old.relabel r := by
  obtain ⟨operation, hmem, hreads⟩ := h
  rw [stage.operations_relabel r] at hmem hreads
  rw [stage.commandName?_relabel r, stageTable?_relabel hjoins] at hreads
  obtain ⟨original, horiginal, rfl⟩ := List.mem_map.1 hmem
  obtain ⟨old, hold, hname⟩ := Operation.reads_of_relabel hreads
  exact ⟨old, ⟨original, horiginal, hold⟩, hname⟩

theorem Pipeline.hasStage_of_relabel {pipeline new : Pipeline} {stage : Stage}
    (hopening : new.opening = pipeline.opening.relabel r)
    (hlater : new.later = pipeline.later.map (·.relabel r)) (h : new.HasStage stage) :
    ∃ old, pipeline.HasStage old ∧ stage = old.relabel r := by
  induction h with
  | own hmem =>
      rw [Pipeline.stages, hopening, hlater, ← List.map_cons] at hmem
      obtain ⟨old, hold, rfl⟩ := List.mem_map.1 hmem
      exact ⟨old, .own hold, rfl⟩
  | @nested outer inner subquery _ hsubquery hinner ih =>
      obtain ⟨old, hold, rfl⟩ := ih
      rw [old.subquery_relabel r] at hsubquery
      obtain ⟨⟨opening, later, span⟩, hown, rfl⟩ := Option.map_eq_some_iff.1 hsubquery
      simp only [Subquery.relabel, Subquery.opening, Subquery.later, relabelStages_eq] at hinner
      rw [← List.map_cons] at hinner
      obtain ⟨first, hfirst, rfl⟩ := List.mem_map.1 hinner
      exact ⟨first, .nested hold hown hfirst, rfl⟩

-- A renamed tree reads nothing as a field that the old one did not.
theorem Pipeline.reads_of_relabel (hjoins : r.Joins) {pipeline new : Pipeline}
    (hopening : new.opening = pipeline.opening.relabel r)
    (hlater : new.later = pipeline.later.map (·.relabel r)) (h : new.Reads name) :
    ∃ old, pipeline.Reads old ∧ name = old.relabel r := by
  obtain ⟨stage, hstage, hreads⟩ := h
  obtain ⟨original, horiginal, rfl⟩ := Pipeline.hasStage_of_relabel hopening hlater hstage
  obtain ⟨old, hold, hname⟩ := Stage.reads_of_relabel hjoins hreads
  exact ⟨old, ⟨original, horiginal, hold⟩, hname⟩

end Reads

namespace Query

variable {source : String} {query : Query} {table : NameTable}

theorem relabelling_joins (query : Query) (table : NameTable) :
    (query.relabelling table).Joins := by
  intro a b
  simp only [relabelling, Span.join, Span.mk.injEq]
  omega

-- The new name of a field is no key, if no target is one.
theorem newText_not_mem (h : Query.parse source = .ok query) {name : Name}
    (hreads : query.pipeline.Reads name)
    (hfresh : ∀ (key target : String), table[key]? = some target → target ∉ table) :
    query.newText table name.span.start name.text ∉ table := by
  obtain ⟨index, token, hspan, hget, -, -, hkind, htext⟩ := token_of_reads h hreads
  have hfield : query.FieldAt index := ⟨name, hreads, hspan⟩
  rw [hspan, Span.single, ← htext, newText_eq_substituted h hget hkind, substituted, if_pos hfield]
  cases hnew : table[token.text]? with
  | none =>
      rw [Option.getD_none, Std.TreeMap.mem_iff_isSome_getElem?, hnew]
      simp
  | some target => exact hfresh _ _ hnew

-- A query that reads no key as a field is given back, but for the blanks at its ends.
theorem renameFields_of_unread (h : Query.parse source = .ok query)
    (hunread : ∀ name, query.pipeline.Reads name → name.text ∉ table) :
    renameFields source table = .ok (Text.trimmed source) := by
  have hnone : query.replacements table = [] := by
    rw [replacements, List.map_eq_nil_iff, Pipeline.renames, List.filterMap_eq_nil_iff]
    intro use huse
    have hname := hunread use.name (Pipeline.reads_iff.2 ⟨use, huse, rfl⟩)
    rw [Std.TreeMap.mem_iff_isSome_getElem?, Bool.not_eq_true, Option.isSome_eq_false_iff,
      Option.isNone_iff_eq_none] at hname
    rw [FieldUse.rename?, hname, Option.map_none]
  have hscan := Scan.tokens_eq_ok_iff.1 (parse_eq_ok h).2.1
  have hpieces : Splice.pieces [] 0 0 query.tokens = query.tokens.map (·.text) := by
    rw [Splice.pieces_single (by simp), ← List.zipIdx_map_fst 0 (query.tokens.map (·.text)),
      List.zipIdx_map, List.map_map]
    refine List.map_congr_left fun entry hentry => ?_
    have hmem := List.mem_of_getElem? (List.mem_zipIdx_iff_getElem?.1 hentry)
    by_cases hfinish : entry.1.kind = .finish
    · simp [Splice.pieceAt, hfinish, hscan.text_of_finish hmem hfinish]
    · simp [Splice.pieceAt, hfinish]
  have hjoin : String.join (query.tokens.map (·.text)) = source := by
    rw [← String.toList_inj, String.toList_join, List.flatMap_map]
    exact hscan.texts
  rw [renameFields_of_parse table h, hnone, Splice.render, hpieces, hjoin]

theorem rename_again (h : Query.parse source = .ok query) (hsafe : query.Safe table)
    (hfresh : ∀ (key target : String), table[key]? = some target → target ∉ table) :
    ∃ text, renameFields source table = .ok text ∧ renameFields text table = .ok text := by
  obtain ⟨text, tokens, hrename, htrimmed, hparse, -⟩ := parse_of_safe h hsafe
  refine ⟨text, hrename, ?_⟩
  have hagain : renameFields text table = .ok (Text.trimmed text) := by
    apply renameFields_of_unread hparse
    intro name hreads
    obtain ⟨old, hold, rfl⟩ :=
      Pipeline.reads_of_relabel (query.relabelling_joins table) rfl rfl hreads
    exact newText_not_mem h hold hfresh
  rwa [htrimmed] at hagain

end Query

-- Renaming again changes nothing, if no target is a key, every target is one ordinary word, and the
-- first time only ordinary words were renamed, none of them directly behind a number.
theorem renameFields_idempotent (source : String) (query : Query) (table : NameTable)
    (h : Query.parse source = .ok query)
    (htargets : ∀ (key target : String), table[key]? = some target → Scan.OneWord target)
    (hfresh : ∀ (key target : String), table[key]? = some target → target ∉ table)
    (hwords : ∀ rename ∈ query.pipeline.renames table, Keyword.classify rename.source = .word)
    (hapart : ∀ rename ∈ query.pipeline.renames table, ∀ index token,
      rename.span.start = index + 1 → query.tokens[index]? = some token → token.kind ≠ .number)
    (text : String) (hrename : renameFields source table = .ok text) :
    renameFields text table = .ok text := by
  have hsafe : query.Safe table := by
    refine ⟨fun rename hmem token hget => ?_, fun rename hmem => ?_, hapart⟩
    · obtain ⟨index, same, hspan, -, hsame, -, -, hsource, -⟩ := Query.token_of_rename h hmem
      have hstart : rename.span.start = index := by rw [hspan, Span.single]
      rw [hstart, hsame] at hget
      cases hget
      rw [(Query.kind_of_rename h hmem (by rw [hstart, hsame])).1, ← hsource]
      exact hwords rename hmem
    · obtain ⟨use, -, -, -, htarget, -⟩ := Query.mem_renames.1 hmem
      exact htargets _ _ htarget
  obtain ⟨again, honce, htwice⟩ := Query.rename_again h hsafe hfresh
  cases hrename.symm.trans honce
  exact htwice

theorem renameFields_idempotent_nested :
    renameFields " NOT a=1 BY a [search b 5 a=b] " (({} : NameTable).insert "a" "x") =
      .ok "NOT x=1 BY x [search b 5 x=b]" ∧
    renameFields "NOT x=1 BY x [search b 5 x=b]" (({} : NameTable).insert "a" "x") =
      .ok "NOT x=1 BY x [search b 5 x=b]" := by
  have hcheck : ((Query.parse " NOT a=1 BY a [search b 5 a=b] ").toOption.any fun query =>
      Splice.render ⟨query.tokens, query.replacements (({} : NameTable).insert "a" "x")⟩ ==
        "NOT x=1 BY x [search b 5 x=b]" &&
      (((query.pipeline.renames (({} : NameTable).insert "a" "x")).all fun rename =>
        Keyword.classify rename.source == .word) &&
      query.apartFromNumbers (({} : NameTable).insert "a" "x"))) = true := by decide +kernel
  have hword : Scan.OneWord "x" := ⟨⟨.word, "x", 0⟩, ⟨.finish, "", 1⟩, by decide +kernel, rfl⟩
  obtain ⟨query, hparse, honce, hquery⟩ := Query.renamed_of_any hcheck
  rw [Bool.and_eq_true] at hquery
  obtain ⟨hwords, hapart⟩ := hquery
  exact ⟨honce, renameFields_idempotent _ query _ hparse (NameTable.single_targets hword)
    (NameTable.single_fresh (by decide))
    (fun rename hmem => by simpa using List.all_eq_true.1 hwords rename hmem)
    (Query.not_number_of_apart hapart) _ honce⟩

-- Behind a number the new name can run together with it: `5foo` is a number and a word, `5d` is a
-- time. So it is not enough that only ordinary words are renamed.
theorem renameFields_again_behind_number : ¬ ∀ (source : String) (query : Query)
    (table : NameTable), Query.parse source = .ok query →
    (∀ (key target : String), table[key]? = some target → Scan.OneWord target) →
    (∀ (key target : String), table[key]? = some target → target ∉ table) →
    (∀ rename ∈ query.pipeline.renames table, Keyword.classify rename.source = .word) →
    ∀ text, renameFields source table = .ok text → renameFields text table = .ok text := by
  intro hclaim
  have hcheck : ((Query.parse "search 5foo=1").toOption.any fun query =>
      Splice.render ⟨query.tokens, query.replacements (({} : NameTable).insert "foo" "d")⟩ ==
        "search 5d=1" &&
      (query.pipeline.renames (({} : NameTable).insert "foo" "d")).all fun rename =>
        Keyword.classify rename.source == .word) = true := by decide +kernel
  have htwice : (renameFields "search 5d=1" (({} : NameTable).insert "foo" "d")).toOption =
      none := by decide +kernel
  have hword : Scan.OneWord "d" := ⟨⟨.word, "d", 0⟩, ⟨.finish, "", 1⟩, by decide +kernel, rfl⟩
  obtain ⟨query, hparse, honce, hquery⟩ := Query.renamed_of_any hcheck
  have hagain := hclaim _ query _ hparse (NameTable.single_targets hword)
    (NameTable.single_fresh (by decide))
    (fun rename hmem => by simpa using List.all_eq_true.1 hquery rename hmem) _ honce
  rw [hagain] at htwice
  cases htwice

-- The word `like` is an operator as well as a name. When it is renamed in one place, what stands
-- before it is read differently, and another `like` becomes a field. So it is not enough that no
-- renamed token stands behind a number.
theorem renameFields_again_operator : ¬ ∀ (source : String) (query : Query)
    (table : NameTable), Query.parse source = .ok query →
    (∀ (key target : String), table[key]? = some target → Scan.OneWord target) →
    (∀ (key target : String), table[key]? = some target → target ∉ table) →
    (∀ rename ∈ query.pipeline.renames table, ∀ index token,
      rename.span.start = index + 1 → query.tokens[index]? = some token → token.kind ≠ .number) →
    ∀ text, renameFields source table = .ok text → renameFields text table = .ok text := by
  intro hclaim
  have hcheck : ((Query.parse
      "search e OUTPUT a, like like v - z OUTPUT c, k, l").toOption.any fun query =>
        Splice.render ⟨query.tokens, query.replacements (({} : NameTable).insert "like" "foo")⟩ ==
          "search e OUTPUT a, like foo v - z OUTPUT c, k, l" &&
        query.apartFromNumbers (({} : NameTable).insert "like" "foo")) = true := by decide +kernel
  have htwice : (renameFields "search e OUTPUT a, like foo v - z OUTPUT c, k, l"
      (({} : NameTable).insert "like" "foo")).toOption =
        some "search e OUTPUT a, foo foo v - z OUTPUT c, k, l" := by decide +kernel
  have hword : Scan.OneWord "foo" :=
    ⟨⟨.word, "foo", 0⟩, ⟨.finish, "", 3⟩, by decide +kernel, rfl⟩
  obtain ⟨query, hparse, honce, hapart⟩ := Query.renamed_of_any hcheck
  have hagain := hclaim _ query _ hparse (NameTable.single_targets hword)
    (NameTable.single_fresh (by decide)) (Query.not_number_of_apart hapart) _ honce
  rw [hagain] at htwice
  exact absurd htwice (by decide)

end SearchPipeline
