import SearchPipeline.Proofs.Rename.Substitution

namespace SearchPipeline

open Grammar

-- The field uses of the operands of a stage stand before those of its subquery.
theorem Stage.fieldUses_eq (s : Stage) : s.fieldUses =
    s.operations.flatMap
        (Operation.fieldUses s.commandName? (stageTable? s.commandName? s.operations)) ++
      (Stage.mk false none [] s.subquery s.span).fieldUses := by
  obtain ⟨piped, command, operations, subquery, span⟩ := s
  cases subquery <;> rfl

namespace Grammar

-- Of the field uses between two positions, those of a part stand between two others, and the rest
-- stand before the part or behind it.
structure Apart (tape : Tape) (uses own : List FieldUse) (first begins ends stop : Nat) : Prop where
  split : ∃ before behind, uses = before ++ own ++ behind ∧
    Located tape (before.map (·.name)) first begins ∧
    Located tape (behind.map (·.name)) ends stop
  begins : first ≤ begins
  ends : ends ≤ stop

-- The field uses of a stage stand apart where its body is spelled.
def Framed (tape : Tape) (uses : List FieldUse) (stage : Stage) (first stop : Nat) : Prop :=
  ∃ begins ends, Apart tape uses stage.fieldUses first begins ends stop ∧
    Spells tape (bodyParts stage.operations stage.subquery) begins ends

variable {tape : Tape} {uses part own others : List FieldUse} {s : Stage}
  {first begins ends stop a b : Nat}

-- A located name has the span of one token.
theorem Located.span_of_mem {names : List Name} {name : Name} (h : Located tape names first stop)
    (hmem : name ∈ names) :
    ∃ pos, first ≤ pos ∧ pos < stop ∧ name.span = .single (tape.index pos) := by
  obtain ⟨pos, hfirst, hstop, hname⟩ := h.derives_of_mem hmem
  have hspan : name.span = _ := hname.fits.span
  exact ⟨pos, hfirst, hstop, hspan.trans (Tape.span_single tape pos)⟩

theorem Located.of_stage (h : Derives tape (.stage s) first stop) :
    Located tape (s.fieldUses.map (·.name)) first stop := by
  have hparts := h.spells
  simp only [Node.parts, Spells.append_iff] at hparts
  obtain ⟨begins, hcommand, hbody⟩ := hparts
  exact (Located.stage s hbody).widen hcommand.le

namespace Apart

theorem self (hbegins : first ≤ begins) (hends : ends ≤ stop) :
    Apart tape own own first begins ends stop :=
  ⟨⟨[], [], by simp, .nil, .nil⟩, hbegins, hends⟩

theorem left (h : Located tape (others.map (·.name)) ends stop) (hle : ends ≤ stop) :
    Apart tape (own ++ others) own first first ends stop :=
  ⟨⟨[], others, by simp, .nil, h⟩, Nat.le_refl _, hle⟩

theorem right (h : Located tape (others.map (·.name)) first begins) (hle : first ≤ begins) :
    Apart tape (others ++ own) own first begins stop stop :=
  ⟨⟨others, [], by simp, h, .nil⟩, hle, Nat.le_refl _⟩

theorem trans (h : Apart tape uses part first begins ends stop)
    (hpart : Apart tape part own begins a b ends) : Apart tape uses own first a b stop := by
  obtain ⟨before, behind, rfl, hbefore, hbehind⟩ := h.split
  obtain ⟨left, right, rfl, hleft, hright⟩ := hpart.split
  refine ⟨⟨before ++ left, right ++ behind, by simp, ?_, ?_⟩,
    Nat.le_trans h.begins hpart.begins, Nat.le_trans hpart.ends h.ends⟩
  · rw [List.map_append]
    exact hbefore.append hleft h.begins hpart.begins
  · rw [List.map_append]
    exact hright.append hbehind hpart.ends h.ends

-- A use inside the span of the part is one of the part.
theorem mem_of_inside (h : Apart tape uses own first begins ends stop) (hot : tape.Orderly)
    (hlt : begins < ends) (hstop : stop ≤ tape.size) {use : FieldUse} (hmem : use ∈ uses)
    (hstart : (tape.span begins ends).start ≤ use.name.span.start)
    (hend : use.name.span.stop ≤ (tape.span begins ends).stop) : use ∈ own := by
  obtain ⟨before, behind, rfl, hbefore, hbehind⟩ := h.split
  have hends := h.ends
  rw [Tape.span_of_lt hlt] at hstart hend
  rcases List.mem_append.1 hmem with hmem | hmem
  · rcases List.mem_append.1 hmem with hmem | hmem
    · obtain ⟨pos, -, hpos, hspan⟩ := hbefore.span_of_mem (List.mem_map_of_mem hmem)
      rw [hspan] at hstart
      have hrise := hot.rises pos begins hpos (by omega)
      exact absurd hstart (Nat.not_le.2 hrise)
    · exact hmem
  · obtain ⟨pos, hpos, hbound, hspan⟩ := hbehind.span_of_mem (List.mem_map_of_mem hmem)
    rw [hspan] at hend
    have hrise := hot.rises (ends - 1) pos (by omega) (by omega)
    exact absurd (Nat.le_of_succ_le_succ hend) (Nat.not_le.2 hrise)

end Apart

namespace Framed

theorem of_apart (h : Apart tape uses part first begins ends stop)
    (hpart : Framed tape part s begins ends) : Framed tape uses s first stop := by
  obtain ⟨a, b, hapart, hbody⟩ := hpart
  exact ⟨a, b, h.trans hapart, hbody⟩

theorem of_opening (h : Derives tape (.opening s) first stop) :
    Framed tape s.fieldUses s first stop := by
  have hparts := h.spells
  simp only [Node.parts, List.append_assoc, Spells.append_iff] at hparts
  obtain ⟨behind, hpipe, begins, hcommand, hbody⟩ := hparts
  exact ⟨begins, stop, .self (Nat.le_trans hpipe.le hcommand.le) (Nat.le_refl _), hbody⟩

theorem of_stage (h : Derives tape (.stage s) first stop) :
    Framed tape s.fieldUses s first stop := by
  have hparts := h.spells
  simp only [Node.parts, Spells.append_iff] at hparts
  obtain ⟨begins, hcommand, hbody⟩ := hparts
  exact ⟨begins, stop, .self hcommand.le (Nat.le_refl _), hbody⟩

theorem of_later {later : List Stage} (h : Spells tape (laterParts later) first stop)
    (hmem : s ∈ later) : Framed tape (stagesFieldUses later) s first stop := by
  induction later generalizing first with
  | nil => cases hmem
  | cons one rest ih =>
      simp only [laterParts, List.flatMap_cons, List.cons_append, List.nil_append, Spells.token_iff,
        Spells.node_iff] at h
      -- the stage stands behind its pipe
      obtain ⟨-, mid, hone, hrest⟩ := h
      rw [stagesFieldUses]
      rcases List.mem_cons.1 hmem with rfl | hmem
      · refine of_apart (.left (.stages (fun s _ _ _ => .stage s) hrest) hrest.le) ?_
        exact of_apart (.self (Nat.le_succ first) (Nat.le_refl _)) (of_stage hone)
      · have hbefore := (Located.of_stage hone).widen (Nat.le_succ first)
        exact of_apart (.right hbefore (Nat.le_of_succ_le hone.spells.le)) (ih hrest hmem)

-- The stages of a pipeline, be it the whole query or a subquery.
theorem of_chain {opening : Stage} {later : List Stage} {mid : Nat}
    (hopening : Derives tape (.opening opening) first mid)
    (hlater : Spells tape (laterParts later) mid stop) (hmem : s ∈ opening :: later) :
    Framed tape (opening.fieldUses ++ stagesFieldUses later) s first stop := by
  rcases List.mem_cons.1 hmem with rfl | hmem
  · exact of_apart (.left (.stages (fun s _ _ _ => .stage s) hlater) hlater.le)
      (of_opening hopening)
  · exact of_apart (.right (.opening hopening fun _ _ => .stage opening) hopening.spells.le)
      (of_later hlater hmem)

-- The stages of the subquery of a stage.
theorem of_subquery {q : Subquery} {inner : Stage}
    (h : Spells tape (bodyParts s.operations s.subquery) first stop) (hq : s.subquery = some q)
    (hmem : inner ∈ q.opening :: q.later) : Framed tape s.fieldUses inner first stop := by
  obtain ⟨piped, command, operations, subquery, span⟩ := s
  obtain rfl : subquery = some q := hq
  have hsplit : bodyParts operations (some q) =
      bodyParts operations none ++ [.node (.subquery q)] := by
    simp [bodyParts]
  simp only [Stage.operations, Stage.subquery, hsplit, Spells.append_iff, Spells.node_iff,
    Spells.nil_iff] at h
  obtain ⟨mid, hoperations, last, hsubquery, rfl⟩ := h
  have hparts := hsubquery.spells
  simp only [Node.parts, Spells.append_iff, Spells.token_iff, Spells.node_iff,
    Spells.nil_iff] at hparts
  obtain ⟨close, ⟨later, ⟨-, begins, hopening, rfl⟩, hlater⟩, -, rfl⟩ := hparts
  have hchain := of_chain hopening hlater hmem
  have hinside : Framed tape (q.opening.fieldUses ++ stagesFieldUses q.later) inner mid
      (close + 1) :=
    of_apart (.self (Nat.le_succ mid) (Nat.le_succ close)) hchain
  obtain ⟨opening, later, inside⟩ := q
  exact of_apart (.right (.operations hoperations) hoperations.le) hinside

theorem of_hasStage {pipeline : Pipeline} (h : Spells tape (rootParts pipeline) first stop)
    (hstage : pipeline.HasStage s) : Framed tape pipeline.fieldUses s first stop := by
  induction hstage with
  | own hmem =>
      simp only [rootParts, Spells.node_iff] at h
      obtain ⟨mid, hopening, hlater⟩ := h
      exact of_chain hopening hlater hmem
  | nested _ hq hinner ih =>
      obtain ⟨begins, ends, hapart, hbody⟩ := ih
      exact of_apart hapart (of_subquery hbody hq hinner)

-- The field uses of the first operand stand apart from those of the others.
theorem of_first {operation : Operation} {rest : List Operation}
    (h : Framed tape uses s first stop) (hoperations : s.operations = operation :: rest) :
    ∃ begins ends, Apart tape uses (operation.fieldUses s.commandName?
        (stageTable? s.commandName? s.operations)) first begins ends stop ∧
      Derives tape (.operation operation) begins ends := by
  obtain ⟨begins, last, hapart, hbody⟩ := h
  have hsplit : bodyParts s.operations s.subquery =
      [.node (.operation operation), .optional [.comma]] ++ bodyParts rest none ++
        bodyParts [] s.subquery := by
    simp [bodyParts, hoperations]
  rw [hsplit] at hbody
  simp only [Spells.append_iff, Spells.node_iff, Spells.optional_iff, Spells.nil_iff] at hbody
  obtain ⟨behind, ⟨mid, ⟨ends, hoperation, hcomma⟩, hrest⟩, hsubquery⟩ := hbody
  have hinner := Located.stage (.mk false none [] s.subquery s.span) hsubquery
  have hle : ends ≤ mid := by omega
  have hrise := hrest.le
  have hend := hsubquery.le
  refine ⟨begins, ends, hapart.trans ?_, hoperation⟩
  rw [Stage.fieldUses_eq, hoperations, List.flatMap_cons, List.append_assoc]
  refine .left ?_ (by omega)
  rw [List.map_append]
  exact ((Located.operations hrest).append hinner hrise hend).widen hle

end Framed

-- The names that an output clause reads as fields stand behind its table.
theorem Derives.behind_table {table : Expr} {inputs : List Expr} {mode : OutputMode}
    {outputs : List Name} {span : Span} (command : Option String)
    (h : Derives tape (.operation (.output (table :: inputs) mode outputs span)) first stop) :
    ∃ mid, Derives tape (.expr table) first mid ∧ mid ≤ stop ∧
      Located tape (((Operation.output (table :: inputs) mode outputs span).fieldUses command
        (some table.span)).map (·.name)) mid stop := by
  have hspells := h.spells
  simp only [Node.parts, Node.operationParts, List.map_cons, List.cons_append, Function.comp_apply,
    Spells.append_iff, Spells.node_iff] at hspells
  obtain ⟨mid, htable, last, ⟨behind, hinputs, hmode⟩, houtputs⟩ := hspells
  have hle := hinputs.le
  have hrise := hmode.le
  have hend := houtputs.le
  refine ⟨mid, htable, by omega, ((Located.exprs hinputs).extend hle (by omega)).sublist ?_⟩
  simp only [Operation.fieldUses, List.map_filterMap, Option.map_map, Function.comp_def,
    Option.map_id']
  rw [List.filter_cons_of_neg (by simp)]
  exact List.filter_sublist.filterMap Expr.asName?

end Grammar

-- Whether an operation is an output clause, which keeps its table from the renaming.
def Operation.isOutput : Operation → Bool
  | .output _ _ _ _ => true
  | _ => false

theorem Operation.isOutput_eq_true {operation : Operation} (h : operation.isOutput = true) :
    ∃ inputs mode outputs span, operation = .output inputs mode outputs span := by
  cases operation with
  | output inputs mode outputs span => exact ⟨inputs, mode, outputs, span, rfl⟩
  | _ => cases h

theorem lookupTable?_of_not_output {first : Operation} {rest : List Operation}
    (h : first.isOutput = false) : lookupTable? (first :: rest) = some first.span := by
  cases first with
  | output => cases h
  | _ => rfl

-- The field uses inside the table of a `lookup` that a first operand holds.
def Operation.tableUses (place : Span) (first : Operation) : List FieldUse :=
  if first.isOutput then [] else first.fieldUses (some "lookup") (some place)

theorem Operation.mem_tableUses {place : Span} {first : Operation} {name : Name} :
    name ∈ (first.tableUses place).map (·.name) ↔
      first.isOutput = false ∧ first.Reads (some "lookup") (some place) name := by
  unfold tableUses
  cases first.isOutput with
  | true => simp
  | false =>
      simp only [Bool.false_eq_true, if_false, true_and]
      constructor
      · intro h
        obtain ⟨use, huse, rfl⟩ := List.mem_map.1 h
        exact reads_of_mem huse
      · exact mem_of_reads

namespace Grammar

-- The table of a `lookup` that is read takes tokens, and its field uses stand apart.
theorem Framed.of_table {first : Operation} {rest : List Operation} {start : Nat}
    (h : Framed tape uses s start stop) (hlookup : s.commandName? = some "lookup")
    (hoperations : s.operations = first :: rest) :
    ∃ begins ends, lookupTable? s.operations = some (tape.span begins ends) ∧ begins < ends ∧
      Apart tape uses (first.tableUses (tape.span begins ends)) start begins ends stop ∧
      Located tape ((first.tableUses (tape.span begins ends)).map (·.name)) begins ends := by
  obtain ⟨begins, ends, hapart, hfirst⟩ := h.of_first hoperations
  have htable : stageTable? s.commandName? s.operations = lookupTable? s.operations := by
    rw [hlookup]
    rfl
  rw [htable, hlookup, hoperations] at hapart
  rw [hoperations]
  cases hkind : first.isOutput with
  | true =>
      obtain ⟨inputs, mode, outputs, span, rfl⟩ := Operation.isOutput_eq_true hkind
      obtain ⟨-, hsome, -⟩ := hfirst.fits.legal
      obtain ⟨table, inputs, rfl⟩ := List.exists_cons_of_length_pos hsome
      obtain ⟨mid, hinput, hmid, hlocated⟩ := hfirst.behind_table (some "lookup")
      have hspan : some table.span = some (tape.span begins mid) :=
        congrArg some hinput.fits.span
      have hplace : lookupTable? (.output (table :: inputs) mode outputs span :: rest) =
          some (tape.span begins mid) := hspan
      -- whatever the clause reads stands behind the table, and nothing it reads is inside
      rw [hspan] at hlocated
      rw [hplace] at hapart
      have hnone : Apart tape _ [] begins begins mid ends := .left hlocated hmid
      exact ⟨begins, mid, hplace, hinput.lt, hapart.trans hnone, .nil⟩
  | false =>
      have hplace : lookupTable? (first :: rest) = some (tape.span begins ends) := by
        rw [lookupTable?_of_not_output hkind]
        exact congrArg some hfirst.fits.span
      have huses : first.tableUses (tape.span begins ends) =
          first.fieldUses (some "lookup") (some (tape.span begins ends)) := by
        rw [Operation.tableUses, hkind]
        rfl
      rw [hplace] at hapart
      refine ⟨begins, ends, hplace, hfirst.lt, ?_⟩
      rw [huses]
      exact ⟨hapart, .operation hfirst⟩

end Grammar

namespace Query

-- A rename lies inside the table of a `lookup` exactly where the operand that holds the table is no
-- output clause and reads the name as a field.
theorem rename_inside_table_iff (source : String) (query : Query) (table : NameTable)
    (stage : Stage) (first : Operation) (rest : List Operation)
    (hparse : Query.parse source = .ok query) (hstage : query.pipeline.HasStage stage)
    (hlookup : stage.commandName? = some "lookup")
    (hoperations : stage.operations = first :: rest) :
    ∃ place, lookupTable? stage.operations = some place ∧
      ∀ rename ∈ query.pipeline.renames table,
        (place.start ≤ rename.span.start ∧ rename.span.stop ≤ place.stop) ↔
          first.isOutput = false ∧
            ∃ name, first.Reads (some "lookup") (some place) name ∧ name.span = rename.span := by
  obtain ⟨stop, hspells, -, -, hsize, -⟩ := parse_spells hparse
  have hot : query.tape.Orderly := Tape.ofTokens_orderly query.source query.tokens
  obtain ⟨begins, ends, hplace, hlt, hapart, hlocated⟩ :=
    (Framed.of_hasStage hspells hstage).of_table hlookup hoperations
  have hends := hapart.ends
  refine ⟨_, hplace, fun rename hrename => ⟨fun ⟨hstart, hstop⟩ => ?_, fun ⟨hkind, hreads⟩ => ?_⟩⟩
  · obtain ⟨use, huse, hspan, -⟩ := mem_renames.1 hrename
    rw [hspan] at hstart hstop
    have hown := hapart.mem_of_inside hot hlt (by omega) huse hstart hstop
    obtain ⟨hkind, hreads⟩ := Operation.mem_tableUses.1 (List.mem_map_of_mem hown)
    exact ⟨hkind, use.name, hreads, hspan.symm⟩
  · obtain ⟨name, hreads, hspan⟩ := hreads
    have hmem := Operation.mem_tableUses.2 ⟨hkind, hreads⟩
    obtain ⟨pos, hpos, hbound, hsingle⟩ := hlocated.span_of_mem hmem
    have hbegin := hot.index_mono begins pos hpos (by omega)
    have hend := hot.index_mono pos (ends - 1) (by omega) (by omega)
    rw [← hspan, hsingle, Tape.span_of_lt hlt]
    exact ⟨hbegin, Nat.succ_le_succ hend⟩

theorem rename_inside_table_nested : ∃ query stage first rest place,
    Query.parse "search a=1 [search b=2 | lookup NOT a OUTPUT c, a=3]" = .ok query ∧
      query.pipeline.HasStage stage ∧ stage.commandName? = some "lookup" ∧
      stage.operations = first :: rest ∧ lookupTable? stage.operations = some place ∧
      (query.pipeline.renames (({} : NameTable).insert "a" "x")).length = 3 ∧
      ∀ rename ∈ query.pipeline.renames (({} : NameTable).insert "a" "x"),
        (place.start ≤ rename.span.start ∧ rename.span.stop ≤ place.stop) ↔
          first.isOutput = false ∧
            ∃ name, first.Reads (some "lookup") (some place) name ∧ name.span = rename.span := by
  have hread : (Query.parse "search a=1 [search b=2 | lookup NOT a OUTPUT c, a=3]").toOption.any
      (fun query => (query.pipeline.renames (({} : NameTable).insert "a" "x")).length == 3 &&
        query.pipeline.opening.subquery.any fun subquery =>
          subquery.later.any fun stage => stage.commandName? == some "lookup" &&
            !stage.operations.isEmpty) = true := by decide +kernel
  obtain ⟨query, hparse, hcheck⟩ := parse_of_any hread
  simp only [Bool.and_eq_true, beq_iff_eq, Option.any_eq_true, List.any_eq_true,
    Bool.not_eq_true', List.isEmpty_eq_false_iff] at hcheck
  obtain ⟨hcount, subquery, hsubquery, stage, hmem, hlookup, hsome⟩ := hcheck
  obtain ⟨first, rest, hoperations⟩ := List.exists_cons_of_ne_nil hsome
  have hstage : query.pipeline.HasStage stage :=
    .nested (.own List.mem_cons_self) hsubquery (List.mem_cons_of_mem _ hmem)
  obtain ⟨place, hplace, hrenames⟩ := rename_inside_table_iff _ query
    (({} : NameTable).insert "a" "x") stage first rest hparse hstage hlookup hoperations
  exact ⟨query, stage, first, rest, place, hparse, hstage, hlookup, hoperations, hplace, hcount,
    hrenames⟩

-- The table that an output clause has taken in is renamed when more is combined with the clause.
theorem rename_inside_table_combined : ¬ ∀ (source : String) (query : Query) (table : NameTable)
    (stage : Stage) (place : Span), Query.parse source = .ok query →
    query.pipeline.HasStage stage → stage.commandName? = some "lookup" → stage.operations ≠ [] →
    lookupTable? stage.operations = some place → ∀ rename ∈ query.pipeline.renames table,
      ¬(place.start ≤ rename.span.start ∧ rename.span.stop ≤ place.stop) := by
  intro hclaim
  have hread : (Query.parse "search x=1 | lookup geo OUTPUT city AND ip=1").toOption.any
      (fun query => query.pipeline.later.any fun stage =>
        stage.commandName? == some "lookup" && (!stage.operations.isEmpty &&
          (lookupTable? stage.operations).any fun place =>
            (query.pipeline.renames (({} : NameTable).insert "geo" "GEO")).any fun rename =>
              decide (place.start ≤ rename.span.start) &&
                decide (rename.span.stop ≤ place.stop))) = true := by decide +kernel
  obtain ⟨query, hparse, hcheck⟩ := parse_of_any hread
  simp only [Bool.and_eq_true, beq_iff_eq, Option.any_eq_true, List.any_eq_true,
    Bool.not_eq_true', List.isEmpty_eq_false_iff, decide_eq_true_eq] at hcheck
  obtain ⟨stage, hmem, hlookup, hsome, place, hplace, rename, hrename, hinside⟩ := hcheck
  exact hclaim _ query _ stage place hparse (.own (List.mem_cons_of_mem _ hmem)) hlookup hsome
    hplace rename hrename hinside

end Query

end SearchPipeline
