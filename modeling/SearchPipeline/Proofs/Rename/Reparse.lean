import SearchPipeline.Proofs.Grammar.Alignment
import SearchPipeline.Proofs.Rename.Substitution

namespace SearchPipeline

open Grammar

namespace Query

-- The text at an index after a renaming: what a rename puts there, or what was there.
def newText (query : Query) (table : NameTable) (index : Nat) (text : String) : String :=
  ((query.pipeline.renames table).find? (·.span.start == index)).elim text (·.target)

-- How many tokens are gone when the text is trimmed at the start.
def lead (query : Query) : Nat := (Scan.leadingBlank query.tokens).length

-- What a renaming does to the tree.
def relabelling (query : Query) (table : NameTable) : Relabel where
  text name := query.newText table name.span.start name.text
  place span := ⟨span.start - query.lead, span.stop - query.lead⟩

-- What a renaming has to observe for the new text to be read as the old one.
structure Safe (query : Query) (table : NameTable) : Prop where
  words : ∀ rename ∈ query.pipeline.renames table, ∀ token,
    query.tokens[rename.span.start]? = some token → token.kind = .word
  targets : ∀ rename ∈ query.pipeline.renames table, Scan.OneWord rename.target
  apart : ∀ rename ∈ query.pipeline.renames table, ∀ index token,
    rename.span.start = index + 1 → query.tokens[index]? = some token → token.kind ≠ .number

variable {source : String} {query : Query} {table : NameTable} {index : Nat} {text : String}

theorem newText_cases (query : Query) (table : NameTable) (index : Nat) (text : String) :
    query.newText table index text = text ∨ ∃ rename ∈ query.pipeline.renames table,
      rename.span.start = index ∧ query.newText table index text = rename.target := by
  unfold newText
  cases hfind : (query.pipeline.renames table).find? (·.span.start == index) with
  | none => exact .inl rfl
  | some rename =>
      have hstart : rename.span.start = index := by simpa using List.find?_some hfind
      exact .inr ⟨rename, List.mem_of_find?_eq_some hfind, hstart, rfl⟩

theorem newText_eq_substituted (h : Query.parse source = .ok query) {token : Token}
    (hget : query.tokens[index]? = some token) (hkind : token.kind ≠ .finish) :
    query.newText table index token.text = query.substituted table index token := by
  rw [← pieceAt_eq_substituted h hget hkind, Splice.pieceAt, replacements, List.find?_map, newText]
  simp only [Function.comp_def, hkind, if_false]
  cases (query.pipeline.renames table).find? (·.span.start == index) <;> rfl

-- A token before the end of a query that is read is no colon and no at-sign.
theorem token_grammatical (h : Query.parse source = .ok query) {token : Token}
    (hget : query.tokens[index]? = some token) (hkind : token.kind ≠ .finish)
    (htrivia : token.isTrivia = false) : token.kind.isGrammatical = true := by
  obtain ⟨stop, -, -, hkinds, hsize, hend, -⟩ := parse_spells h
  obtain ⟨pos, hpos, hmark⟩ := Tape.exists_pos query.source hget htrivia
  have hsame : query.tape.kind pos = token.kind := by rw [Tape.kind, tape, hmark]
  have hne : pos ≠ stop := by
    rintro rfl
    exact hkind (hsame.symm.trans hend)
  have hlt : pos < query.tape.size := hpos
  rw [← hsame]
  exact hkinds pos (by omega)

theorem edits_of_safe (h : Query.parse source = .ok query) (hsafe : query.Safe table)
    {before : List Token} {last : Token} (htokens : query.tokens = before ++ [last])
    (hbefore : ∀ token ∈ before, token.kind ≠ .finish) :
    Scan.Edits (Scan.editsBy (query.newText table) 0 before) := by
  have hget : ∀ {index : Nat} {token : Token}, before[index]? = some token →
      query.tokens[index]? = some token := by
    intro index token hindex
    rw [htokens, List.getElem?_append_left (List.getElem?_eq_some_iff.1 hindex).1, hindex]
  refine ⟨fun edit hedit => ?_, ?_⟩
  · obtain ⟨⟨token, index⟩, hmem, rfl⟩ := List.mem_map.1 hedit
    have hindex := hget (List.mem_zipIdx_iff_getElem?.1 hmem)
    rcases query.newText_cases table index token.text with
      hsame | ⟨rename, hrename, rfl, htarget⟩
    · exact .inl (by rw [Scan.Edit.Kept, hsame])
    · refine .inr ⟨hsafe.words rename hrename token hindex, ?_⟩
      rw [htarget]
      exact (hsafe.targets rename hrename).isWord
  · rw [Scan.editsBy, List.isChain_iff_getElem]
    intro index hlt
    rw [List.length_map, List.length_zipIdx] at hlt
    simp only [List.getElem_map, List.getElem_zipIdx, Nat.zero_add]
    rcases query.newText_cases table (index + 1) before[index + 1].text with
      hsame | ⟨rename, hrename, hstart, -⟩
    · exact .inl (by rw [Scan.Edit.Kept, hsame])
    · -- the token before a word that is renamed is not one of those that go on with a word
      have hprevious := hget (List.getElem?_eq_getElem (Nat.lt_of_succ_lt hlt))
      have hnumber := hsafe.apart rename hrename index _ hstart hprevious
      have hunread (kind : Kind) (htrivia : kind.isTrivia = false)
          (hplain : kind.isGrammatical = false) : before[index].kind ≠ kind := by
        rintro rfl
        have hgrammatical := token_grammatical h hprevious (hbefore _ (List.getElem_mem _)) htrivia
        exact absurd hgrammatical (by rw [hplain]; decide)
      exact .inr ⟨hnumber, hunread .colon rfl rfl, hunread .atSign rfl rfl⟩

-- The new text, before it is trimmed.
theorem join_substituted (h : Query.parse source = .ok query) {before : List Token} {last : Token}
    (htokens : query.tokens = before ++ [last]) (hbefore : ∀ token ∈ before, token.kind ≠ .finish) :
    (String.join (query.tokens.dropLast.zipIdx.map fun entry =>
      query.substituted table entry.2 entry.1)).toList =
        (Scan.editsBy (query.newText table) 0 before).flatMap (·.text) := by
  rw [String.toList_join, htokens, List.dropLast_concat, List.flatMap_map, Scan.editsBy,
    List.flatMap_map]
  refine List.flatMap_congr fun entry hentry => ?_
  have hindex := List.mem_zipIdx_iff_getElem?.1 hentry
  have hget : query.tokens[entry.2]? = some entry.1 := by
    rw [htokens, List.getElem?_append_left (List.getElem?_eq_some_iff.1 hindex).1, hindex]
  rw [newText_eq_substituted h hget (hbefore _ (List.mem_of_getElem? hindex))]

-- The significant tokens of a query stand behind the blank at its start and before its end.
theorem solids_within {before : List Token} {last : Token} (htokens : query.tokens = before ++ [last])
    (hlast : last.kind = .finish) :
    ∀ solid ∈ Scan.solids 0 query.tokens,
      query.lead ≤ solid.index ∧ (solid.kind ≠ .finish → solid.index < before.length) := by
  intro solid hmem
  constructor
  · rw [← Scan.leadingBlank_append_drop query.tokens, Scan.solids_append, Scan.solids_leadingBlank,
      List.nil_append, Nat.zero_add] at hmem
    exact (Scan.mem_solids hmem).1
  · intro hkind
    obtain ⟨token, hget, -, hsolid⟩ := Tape.mem_solids_iff.1 hmem
    have hlt := (List.getElem?_eq_some_iff.1 hget).1
    rw [htokens, List.length_append, List.length_singleton] at hlt
    by_contra hle
    have hindex : solid.index = before.length := by omega
    rw [htokens, hindex, List.getElem?_concat_length] at hget
    rw [hsolid, ← Option.some.inj hget] at hkind
    exact hkind hlast

-- No rename is of the end of a query or of anything behind it.
theorem newText_behind (h : Query.parse source = .ok query) {before : List Token} {last : Token}
    (htokens : query.tokens = before ++ [last]) (hlast : last.kind = .finish)
    (hindex : before.length ≤ index) : query.newText table index text = text := by
  rcases query.newText_cases table index text with hsame | ⟨rename, hrename, rfl, -⟩
  · exact hsame
  obtain ⟨index, token, hspan, -, hget, -, hkind, -⟩ := token_of_rename h hrename
  have hstart : rename.span.start = index := by rw [hspan, Span.single]
  have hlt := (List.getElem?_eq_some_iff.1 hget).1
  rw [htokens, List.length_append, List.length_singleton] at hlt
  rw [htokens, show index = before.length by omega, List.getElem?_concat_length] at hget
  rw [← Option.some.inj hget] at hkind
  exact absurd hlast hkind

-- The new text is trimmed, and its significant tokens are those of the query.
theorem aligned_of_safe (h : Query.parse source = .ok query) (hsafe : query.Safe table) :
    ∃ text tokens, renameFields source table = .ok text ∧ Text.trimmed text = text ∧
      Scan.tokens text = .ok tokens ∧
      Aligned (query.newText table) query.lead (query.tokens.length - 1) (tokens.length - 1)
        query.tokens tokens := by
  obtain ⟨-, hread, -⟩ := parse_eq_ok h
  have hscan := Scan.tokens_eq_ok_iff.1 hread
  obtain ⟨before, last, htokens, hlast, hbefore⟩ := hscan.ends
  have hlength : query.tokens.length = before.length + 1 := by simp [htokens]
  obtain ⟨tokens, hscans, hpos, hnear, hsolids⟩ := hscan.renumber htokens hlast rfl
    (edits_of_safe h hsafe htokens hbefore) (newText_behind h htokens hlast (Nat.le_refl _))
  rw [← join_substituted h htokens hbefore] at hscans
  obtain ⟨before', last', htokens', hlast', -⟩ := hscans.ends
  refine ⟨_, tokens, (renameFields_of_parse table h).trans (by rw [render_replacements h]), ?_, ?_, ?_⟩
  · rw [Text.trimmed, Text.trimmed, String.toList_ofList, Text.trim_trim]
  · rw [Scan.tokens_eq_ok_iff, Text.trimmed, String.toList_ofList]
    exact hscans
  · refine
      { ended := by simp [Tape.Ended, htokens, hlast]
        others_ended := by simp [Tape.Ended, htokens', hlast']
        length := by omega
        others_length := by omega
        near := by rwa [hlength, Nat.add_sub_cancel]
        solids := by rwa [hlength, Nat.add_sub_cancel]
        within := by
          rw [hlength, Nat.add_sub_cancel]
          exact solids_within htokens hlast
        words := ?_
        behind := newText_behind h htokens hlast (by omega) }
    intro solid hmem hkind
    rcases query.newText_cases table solid.index solid.text with hsame | ⟨rename, hrename, hstart, -⟩
    · exact hsame
    · obtain ⟨token, hget, -, hsolid⟩ := Tape.mem_solids_iff.1 hmem
      rw [← hstart] at hget
      rw [hsolid] at hkind
      exact absurd (hsafe.words rename hrename token hget) hkind

-- A significant token lies among those that are renumbered by the blank at the start alone.
theorem Significant.within (h : query.Significant index)
    (hwithin : ∀ solid ∈ Scan.solids 0 query.tokens,
      query.lead ≤ solid.index ∧ (solid.kind ≠ .finish → solid.index < query.tokens.length - 1)) :
    query.lead ≤ index ∧ index < query.tokens.length - 1 := by
  obtain ⟨token, hget, htrivia, hkind⟩ := h
  have hmem : (⟨token.kind, token.text, index⟩ : Scan.Solid) ∈ Scan.solids 0 query.tokens :=
    Tape.mem_solids_iff.2 ⟨token, hget, htrivia, rfl⟩
  obtain ⟨hlead, hend⟩ := hwithin _ hmem
  exact ⟨hlead, hend hkind⟩

-- The new text is read as the old one.
theorem parse_of_safe (h : Query.parse source = .ok query) (hsafe : query.Safe table) :
    ∃ text tokens, renameFields source table = .ok text ∧ Text.trimmed text = text ∧
      Query.parse text = .ok ⟨text, tokens,
        query.pipeline.opening.relabel (query.relabelling table),
        query.pipeline.later.map (·.relabel (query.relabelling table)),
        query.pipeline.span.start - query.lead, tokens.length - 1⟩ ∧
      Scan.solids 0 tokens = (Scan.solids 0 query.tokens).map fun solid =>
        (solid.respell (query.newText table)).renumber query.lead (query.tokens.length - 1)
          (tokens.length - 1) := by
  obtain ⟨text, tokens, hrename, htrimmed, hscan, haligned⟩ := aligned_of_safe h hsafe
  refine ⟨text, tokens, hrename, htrimmed, ?_, haligned.solids⟩
  obtain ⟨hsource, -, hpipeline⟩ := parse_eq_ok h
  obtain ⟨stop, -, hpos, hkinds, hsize, hend, hindex, hspan⟩ := parse_spells h
  -- on the nodes of the tree, carrying a span over is moving it
  have hplaces : ∀ node, query.pipeline.Has node →
      haligned.carry.relabel.place node.span = (query.relabelling table).place node.span := by
    intro node hnode
    have hnode := places_of_has h hnode
    have hbegins := hnode.begins.within haligned.within
    have hends := hnode.ends.within haligned.within
    have hnonempty := hnode.nonempty
    change Span.mk (Scan.renumber ..) (Scan.renumber .. + 1) = Span.mk _ _
    rw [Scan.renumber, if_pos hbegins.2, Scan.renumber, if_pos hends.2, Span.mk.injEq]
    omega
  have htexts : haligned.carry.relabel.text = (query.relabelling table).text := rfl
  obtain ⟨hopening, hlater⟩ := Pipeline.relabel_congr htexts hplaces
  have hstart : query.tape.index 0 < query.tokens.length - 1 := by
    have hrise := (Tape.ofTokens_orderly query.source query.tokens).rises 0 stop hpos
      (by change stop < query.tape.size; omega)
    change query.tape.index 0 < query.tape.index stop at hrise
    omega
  have hroot : (⟨haligned.carry.index query.pipeline.span.start,
      haligned.carry.index query.pipeline.span.stop⟩ : Span) =
        ⟨query.pipeline.span.start - query.lead, tokens.length - 1⟩ := by
    have hstop : query.tape.index stop = query.tokens.length - 1 := by omega
    rw [hspan, hstop]
    change Span.mk (Scan.renumber ..) (Scan.renumber ..) = _
    simp only [Scan.renumber, hstart, if_true, Nat.lt_irrefl, if_false, Nat.sub_self,
      Nat.zero_add]
  rw [← hsource] at hpipeline
  have hread := pipelineWith_carries true (haligned.carries query.source text) hpipeline
  rw [Carry.pipeline, hopening, hlater, hroot] at hread
  refine parse_of_tokens hscan ?_ hread
  have hcount := Tape.size_eq_solids query.source haligned.ended
  have hmarks : query.tape.size = (Scan.solids 0 query.tokens).length := hcount
  rw [haligned.solids, List.length_map]
  omega

-- A renamed token has the kind of its text.
theorem kind_of_rename (h : Query.parse source = .ok query) {rename : Rename}
    (hmem : rename ∈ query.pipeline.renames table) {token : Token}
    (hget : query.tokens[rename.span.start]? = some token) :
    token.kind = Keyword.classify token.text ∧ table[token.text]? = some rename.target := by
  obtain ⟨use, huse, hspan, -, htarget, -⟩ := mem_renames.1 hmem
  obtain ⟨index, same, hsingle, hsame, -, hkind, -, htext⟩ :=
    token_of_reads h (Pipeline.reads_iff.2 ⟨use, huse, rfl⟩)
  rw [hspan, hsingle, Span.single, hsame] at hget
  cases hget
  have hscan := Scan.tokens_eq_ok_iff.1 (parse_eq_ok h).2.1
  refine ⟨hscan.kind_eq_classify (List.mem_of_getElem? hsame) ?_, by rw [htext, htarget]⟩
  generalize use.name.use = role at hkind
  generalize token.kind = kind at hkind ⊢
  revert kind
  cases role <;> decide

end Query

-- If the keys of a table are ordinary words, and its targets too, and no renamed token stands
-- directly behind a number, the new text is read, with the significant tokens of the old one but
-- for the names, and with its tree but for the names, moved by the blank that is gone at the start.
-- Only the end of the root is where the end of the new text is.
theorem renameFields_keeps_parse (source : String) (query : Query) (table : NameTable)
    (h : Query.parse source = .ok query) (hkeys : ∀ key ∈ table, Keyword.classify key = .word)
    (htargets : ∀ (key target : String), table[key]? = some target → Scan.OneWord target)
    (hapart : ∀ rename ∈ query.pipeline.renames table, ∀ index token,
      rename.span.start = index + 1 → query.tokens[index]? = some token → token.kind ≠ .number) :
    ∃ text tokens, renameFields source table = .ok text ∧
      Query.parse text = .ok ⟨text, tokens,
        query.pipeline.opening.relabel (query.relabelling table),
        query.pipeline.later.map (·.relabel (query.relabelling table)),
        query.pipeline.span.start - query.lead, tokens.length - 1⟩ ∧
      (tokens.filter (!·.isTrivia)).map (fun token => (token.kind, token.text)) =
        (query.tokens.zipIdx.filter (!·.1.isTrivia)).map fun entry =>
          (entry.1.kind, query.newText table entry.2 entry.1.text) := by
  have hsafe : query.Safe table := by
    refine ⟨fun rename hmem token hget => ?_, fun rename hmem => ?_, hapart⟩
    · obtain ⟨hkind, htarget⟩ := Query.kind_of_rename h hmem hget
      rw [hkind]
      refine hkeys token.text ?_
      rw [Std.TreeMap.mem_iff_isSome_getElem?, htarget]
      rfl
    · obtain ⟨use, -, -, -, htarget, -⟩ := Query.mem_renames.1 hmem
      exact htargets _ _ htarget
  obtain ⟨text, tokens, hrename, -, hparse, hsolids⟩ := Query.parse_of_safe h hsafe
  refine ⟨text, tokens, hrename, hparse, ?_⟩
  rw [← Scan.solids_shown 0, hsolids, Tape.solids_eq_filter, List.map_map, List.map_map]
  rfl

-- A table of one name.
theorem NameTable.getElem?_single {old new key target : String} :
    (({} : NameTable).insert old new)[key]? = some target ↔ key = old ∧ target = new := by
  rw [Std.TreeMap.getElem?_insert]
  constructor
  · intro h
    split at h
    · next hkey => exact ⟨(Std.compare_eq_iff_eq.1 hkey).symm, (Option.some.inj h).symm⟩
    · simp at h
  · rintro ⟨rfl, rfl⟩
    simp

theorem NameTable.mem_single {old new key : String} :
    key ∈ ({} : NameTable).insert old new ↔ key = old := by
  rw [Std.TreeMap.mem_iff_isSome_getElem?, Option.isSome_iff_exists]
  simp only [NameTable.getElem?_single]
  exact ⟨fun ⟨_, hkey, _⟩ => hkey, fun hkey => ⟨new, hkey, rfl⟩⟩

theorem NameTable.single_targets {old new : String} (h : Scan.OneWord new) (key target : String)
    (hget : (({} : NameTable).insert old new)[key]? = some target) : Scan.OneWord target := by
  rw [(NameTable.getElem?_single.1 hget).2]
  exact h

theorem NameTable.single_fresh {old new : String} (h : new ≠ old) (key target : String)
    (hget : (({} : NameTable).insert old new)[key]? = some target) :
    target ∉ ({} : NameTable).insert old new := by
  rw [(NameTable.getElem?_single.1 hget).2, NameTable.mem_single]
  exact h

-- What a query is renamed to can be checked with what it is read as, by reading it once.
theorem Query.renamed_of_any {source text : String} {table : NameTable} {check : Query → Bool}
    (h : ((Query.parse source).toOption.any fun query =>
      Splice.render ⟨query.tokens, query.replacements table⟩ == text && check query) = true) :
    ∃ query, Query.parse source = .ok query ∧ renameFields source table = .ok text ∧
      check query = true := by
  obtain ⟨query, hparse, hquery⟩ := Query.parse_of_any h
  rw [Bool.and_eq_true, beq_iff_eq] at hquery
  obtain ⟨hrender, hcheck⟩ := hquery
  exact ⟨query, hparse, by rw [renameFields_of_parse table hparse, hrender], hcheck⟩

def Query.apartFromNumbers (query : Query) (table : NameTable) : Bool :=
  (query.pipeline.renames table).all fun rename =>
    query.tokens[rename.span.start - 1]?.all (·.kind != .number)

theorem Query.not_number_of_apart {query : Query} {table : NameTable}
    (h : query.apartFromNumbers table = true) :
    ∀ rename ∈ query.pipeline.renames table, ∀ index token,
      rename.span.start = index + 1 → query.tokens[index]? = some token →
        token.kind ≠ .number := by
  intro rename hmem index token hstart hget hkind
  have hone := List.all_eq_true.1 h rename hmem
  rw [hstart, Nat.add_sub_cancel, hget] at hone
  simp [hkind] at hone

-- The name `a` as a field, in the names of a BY clause, in a subquery and as an input of a lookup.
def nestedNames : String := " NOT (a=1) // b\n BY a [search 5 a=b | lookup t a OUTPUT c]  "

def pointedName : NameTable := ({} : NameTable).insert "a" "x.y"

theorem renameFields_keeps_parse_nested : ∃ query text tokens,
    Query.parse nestedNames = .ok query ∧ renameFields nestedNames pointedName = .ok text ∧
      Query.parse text = .ok ⟨text, tokens,
        query.pipeline.opening.relabel (query.relabelling pointedName),
        query.pipeline.later.map (·.relabel (query.relabelling pointedName)),
        query.pipeline.span.start - query.lead, tokens.length - 1⟩ := by
  have hcheck : ((Query.parse nestedNames).toOption.any
      (·.apartFromNumbers pointedName)) = true := by decide +kernel
  obtain ⟨query, hparse, hapart⟩ := Query.parse_of_any hcheck
  have hkeys : ∀ key ∈ pointedName, Keyword.classify key = .word := by
    intro key hkey
    rw [NameTable.mem_single.1 hkey]
    decide +kernel
  have hword : Scan.OneWord "x.y" :=
    ⟨⟨.word, "x.y", 0⟩, ⟨.finish, "", 3⟩, by decide +kernel, rfl⟩
  obtain ⟨text, tokens, hrename, hread, -⟩ :=
    renameFields_keeps_parse _ query _ hparse hkeys (NameTable.single_targets hword)
      (Query.not_number_of_apart hapart)
  exact ⟨query, text, tokens, hparse, hrename, hread⟩

-- The blank at the end is trimmed too, so the end of the root comes nearer even if nothing is gone
-- at the start.
theorem renameFields_moves_end : ¬ ∀ (source : String) (query : Query) (table : NameTable),
    Query.parse source = .ok query → (∀ key ∈ table, Keyword.classify key = .word) →
    (∀ (key target : String), table[key]? = some target → Scan.OneWord target) →
    (∀ rename ∈ query.pipeline.renames table, ∀ index token,
      rename.span.start = index + 1 → query.tokens[index]? = some token → token.kind ≠ .number) →
    ∃ text tokens, renameFields source table = .ok text ∧
      Query.parse text = .ok ⟨text, tokens,
        query.pipeline.opening.relabel (query.relabelling table),
        query.pipeline.later.map (·.relabel (query.relabelling table)),
        query.pipeline.span.start - query.lead, query.pipeline.span.stop - query.lead⟩ := by
  intro hclaim
  have hbefore : ((Query.parse "a=1 ").toOption.any fun query =>
      query.pipeline.span == ⟨0, 4⟩ && query.lead == 0 &&
        (query.pipeline.renames {}).isEmpty) = true := by decide +kernel
  have hrenamed : (renameFields "a=1 " {}).toOption = some "a=1" := by decide +kernel
  have hafter : ((Query.parse "a=1").toOption.any (·.pipeline.span == ⟨0, 3⟩)) = true := by
    decide +kernel
  obtain ⟨query, hparse, hquery⟩ := Query.parse_of_any hbefore
  simp only [Bool.and_eq_true, beq_iff_eq, List.isEmpty_iff] at hquery
  obtain ⟨⟨hspan, hlead⟩, hnone⟩ := hquery
  obtain ⟨text, tokens, hrename, hread⟩ :=
    hclaim "a=1 " query {} hparse (by simp) (by simp) (by simp [hnone])
  rw [hrename] at hrenamed
  cases hrenamed
  rw [hread, hspan, hlead] at hafter
  simp [Except.toOption] at hafter

end SearchPipeline
