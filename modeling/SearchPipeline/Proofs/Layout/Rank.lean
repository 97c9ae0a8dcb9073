import SearchPipeline.Proofs.Grammar.Alignment
import SearchPipeline.Proofs.Layout.Inventory
import SearchPipeline.Proofs.Layout.Outline

namespace SearchPipeline

open Grammar

namespace Scan

-- How many significant tokens stand before an index.
def rank (tokens : List Token) (index : Nat) : Nat :=
  ((tokens.take index).filter (!·.isTrivia)).length

theorem rank_mono (tokens : List Token) {a b : Nat} (hab : a ≤ b) : rank tokens a ≤ rank tokens b := by
  have hprefix : tokens.take a = (tokens.take b).take a := by
    rw [List.take_take, Nat.min_eq_left hab]
  rw [rank, hprefix]
  exact ((List.take_sublist a _).filter _).length_le

-- Spans counted in significant tokens.
def ranking (tokens : List Token) : Relabel where
  text := Name.text
  place span := ⟨rank tokens span.start, rank tokens span.stop⟩

end Scan

-- The tree of a query with spans counted in significant tokens.
def Query.ranked (query : Query) : Pipeline := query.pipeline.relabel (Scan.ranking query.tokens)

namespace Grammar.Tape

theorem Orderly.index_inj {tape : Tape} (h : tape.Orderly) {a b : Nat} (ha : a < tape.size)
    (hb : b < tape.size) (hindex : tape.index a = tape.index b) : a = b := by
  rcases Nat.lt_trichotomy a b with hlt | heq | hgt
  · have := h.rises a b hlt hb
    omega
  · exact heq
  · have := h.rises b a hgt ha
    omega

theorem textBetween_congr {tape other : Tape} {first first' count : Nat}
    (h : ∀ at' < count, (other.mark (first' + at')).text = (tape.mark (first + at')).text) :
    other.textBetween first' (first' + count) = tape.textBetween first (first + count) := by
  simp only [textBetween, Nat.add_sub_cancel_left, List.range'_eq_map_range, List.map_map]
  exact congrArg String.join (List.map_congr_left fun at' hat => h at' (List.mem_range.1 hat))

section

variable (source : String) {tokens : List Token} (hended : Ended tokens) {pos : Nat}

include hended

-- A mark is a token of the list, and no blank or comment.
theorem solid_of_lt (hpos : pos < (ofTokens source tokens).size) :
    ∃ token, tokens[(ofTokens source tokens).index pos]? = some token ∧ token.isTrivia = false := by
  obtain ⟨token, hget, htrivia, -⟩ := mem_solids_iff.1 (solid_mem source hended hpos)
  exact ⟨token, hget, htrivia⟩

theorem rank_index (hpos : pos < (ofTokens source tokens).size) :
    Scan.rank tokens ((ofTokens source tokens).index pos) = pos := by
  refine length_take_of_mark ?_
  rw [← mark_of_lt hpos, marks_of_ended source hended, List.getElem?_toArray]

theorem rank_index_succ (hpos : pos < (ofTokens source tokens).size) :
    Scan.rank tokens ((ofTokens source tokens).index pos + 1) = pos + 1 := by
  obtain ⟨token, hget, htrivia⟩ := solid_of_lt source hended hpos
  have hrank := rank_index source hended hpos
  rw [Scan.rank] at hrank ⊢
  rw [List.take_add_one, hget, List.filter_append, List.length_append, hrank]
  simp [htrivia]

theorem ranking_span {first stop : Nat} (hlt : first < stop)
    (hstop : stop ≤ (ofTokens source tokens).size) :
    (Scan.ranking tokens).place ((ofTokens source tokens).span first stop) = ⟨first, stop⟩ := by
  have hfirst := rank_index source hended (show first < _ by omega)
  have hlast := rank_index_succ source hended (show stop - 1 < _ by omega)
  rw [Nat.sub_add_cancel (by omega)] at hlast
  rw [span_of_lt hlt]
  exact congrArg₂ Span.mk hfirst hlast

end

end Grammar.Tape

namespace Query

-- The nodes inside a node stand behind the same marks.
theorem derives_child {tape : Tape} {here : Nat} {node child : Node}
    (h : ∃ first stop, Derives tape node (first + here) (stop + here)) (hchild : child ∈ node.children) :
    ∃ first stop, Derives tape child (first + here) (stop + here) := by
  obtain ⟨first, stop, hderives⟩ := h
  obtain ⟨a, b, ha, -, hinner⟩ := hderives.spells.derives_of_mem hchild
  have hlt := hinner.lt
  refine ⟨a - here, b - here, ?_⟩
  rwa [Nat.sub_add_cancel (by omega), Nat.sub_add_cancel (by omega)]

section Carried

variable {query other : Query} {carry : Carry} (hc : query.tape.Carries carry other.tape)
  {node node' : Node} {first stop first' stop' : Nat}

include hc

theorem text_carried (htext : ∀ name, carry.text name = name.text) (pos : Nat)
    (hkind : query.tape.kind (pos + carry.here) ≠ .finish) :
    (other.tape.mark (pos + carry.there)).text = (query.tape.mark (pos + carry.here)).text := by
  by_cases hword : query.tape.kind (pos + carry.here) = .word
  · rw [hc.name pos .field (by rw [hword]; rfl), htext]
  · exact hc.text pos hword hkind

theorem span_carried (h : Derives query.tape node (first + carry.here) (stop + carry.here)) :
    carry.relabel.place node.span = other.tape.span (first + carry.there) (stop + carry.there) := by
  have hsize := h.lt_size hc.orderly
  have hlt := h.lt
  rw [h.fits.span, hc.span (by omega) hsize]

-- A node has the text of the same tokens where it is carried to.
theorem compactText_carried (htext : ∀ name, carry.text name = name.text)
    (h : Derives query.tape node (first + carry.here) (stop + carry.here)) :
    other.compactText (carry.relabel.place node.span) = query.compactText node.span := by
  have hlt := h.lt
  have hkind : ∀ pos, first ≤ pos → pos < stop → query.tape.kind (pos + carry.here) ≠ .finish :=
    fun pos hfirst hstop => Kind.ne_finish (h.grammatical (by omega) (by omega))
  have hother : ∀ pos, first + carry.there ≤ pos → pos < stop + carry.there →
      other.tape.kind pos ≠ .finish := by
    intro pos hfirst hstop
    obtain ⟨at', rfl⟩ : ∃ at', pos = at' + carry.there := ⟨pos - carry.there, by omega⟩
    have hat := hkind at' (by omega) (by omega)
    rwa [hc.kind_eq hat]
  rw [span_carried hc h, h.fits.span, compactText_span (by omega) hother,
    compactText_span hlt fun pos hfirst hstop => Kind.ne_finish (h.grammatical hfirst hstop)]
  obtain ⟨count, rfl⟩ : ∃ count, stop = first + count := ⟨stop - first, by omega⟩
  rw [Nat.add_right_comm first count, Nat.add_right_comm first count]
  refine Tape.textBetween_congr fun at' hat => ?_
  have hsame := text_carried hc htext (first + at') (hkind _ (by omega) (by omega))
  rwa [Nat.add_right_comm first at', Nat.add_right_comm first at'] at hsame

-- So stages have the same outline where they are carried to.
theorem outlineOpening_carried (htext : ∀ name, carry.text name = name.text) {s : Stage}
    (h : ∃ first stop, Derives query.tape (.opening s) (first + carry.here) (stop + carry.here)) :
    other.outlineStage "init_command" (s.relabel carry.relabel) =
      query.outlineStage "init_command" s :=
  outlineOpening_relabel carry.joins (fun _ ⟨_, _, hderives⟩ => compactText_carried hc htext hderives)
    derives_child h

theorem outlineLater_carried (htext : ∀ name, carry.text name = name.text) {later : List Stage}
    (h : ∀ s ∈ later, ∃ first stop,
      Derives query.tape (.stage s) (first + carry.here) (stop + carry.here)) :
    other.outlineStages (later.map (·.relabel carry.relabel)) = query.outlineStages later :=
  outlineLater_relabel carry.joins (fun _ ⟨_, _, hderives⟩ => compactText_carried hc htext hderives)
    derives_child h

-- Nodes in different places are carried to different places.
theorem span_of_place_eq (h : Derives query.tape node (first + carry.here) (stop + carry.here))
    (h' : Derives query.tape node' (first' + carry.here) (stop' + carry.here))
    (hplace : carry.relabel.place node.span = carry.relabel.place node'.span) :
    node.span = node'.span := by
  have hlt := h.lt
  have hlt' := h'.lt
  have hsize := h.lt_size hc.orderly
  have hsize' := h'.lt_size hc.orderly
  have hroom := hc.size
  have hot := hc.others_orderly
  rw [span_carried hc h, span_carried hc h', Tape.span_of_lt (by omega), Tape.span_of_lt (by omega),
    Span.mk.injEq] at hplace
  have hfirst := hot.index_inj (by omega) (by omega) hplace.1
  have hstop := hot.index_inj (by omega) (by omega) (Nat.succ.inj hplace.2)
  rw [h.fits.span, h'.fits.span, show first = first' by omega, show stop = stop' by omega]

end Carried

section Root

variable {query : Query} {span span' : Span} {first stop : Nat}

-- The text of a span is that of the significant tokens in it.
theorem compactText_eq_of_rank (hspan : span.start ≤ span.stop) (hspan' : span'.start ≤ span'.stop)
    (h : (Scan.ranking query.tokens).place span = (Scan.ranking query.tokens).place span') :
    query.compactText span = query.compactText span' := by
  have hbetween : ∀ span : Span, span.start ≤ span.stop →
      (query.tokensIn span).filter (!·.isTrivia) = ((query.tokens.filter (!·.isTrivia)).take
        (Scan.rank query.tokens span.stop)).drop (Scan.rank query.tokens span.start) := by
    intro span hle
    rw [Scan.rank, Scan.rank, ← filter_take query.tokens span.stop, tokensIn, ← List.drop_take]
    conv_rhs => rw [← List.take_append_drop span.start (query.tokens.take span.stop)]
    rw [List.take_take, Nat.min_eq_left hle, List.filter_append]
    exact (List.drop_left' rfl).symm
  simp only [Scan.ranking, Span.mk.injEq] at h
  rw [compactText, compactText, hbetween span hspan, hbetween span' hspan', h.1, h.2]

variable (hended : Tape.Ended query.tokens)

include hended

theorem ranking_span (hlt : first < stop) (hstop : stop ≤ query.tape.size) :
    (Scan.ranking query.tokens).place (query.tape.span first stop) = ⟨first, stop⟩ :=
  Tape.ranking_span query.source hended hlt hstop

theorem ranking_root (hstop : stop < query.tape.size) : (Scan.ranking query.tokens).place
    ⟨query.tape.index 0, query.tape.index stop⟩ = ⟨0, stop⟩ :=
  congrArg₂ Span.mk (Tape.rank_index query.source hended (Nat.zero_lt_of_lt hstop))
    (Tape.rank_index query.source hended hstop)

theorem compactText_root (hpos : 0 < stop) (hstop : stop < query.tape.size)
    (hkind : ∀ pos, 0 ≤ pos → pos < stop → query.tape.kind pos ≠ .finish) :
    query.compactText ⟨query.tape.index 0, query.tape.index stop⟩ =
      query.tape.textBetween 0 stop := by
  have hot := Tape.ofTokens_orderly query.source query.tokens
  have hle := hot.index_mono 0 stop (Nat.zero_le stop) hstop
  have hmono := hot.index_mono 0 (stop - 1) (Nat.zero_le _) (Nat.lt_of_le_of_lt (by omega) hstop)
  rw [← compactText_span hpos hkind]
  refine compactText_eq_of_rank hle ?_ ?_
  · rw [Tape.span_of_lt hpos]
    exact Nat.le_succ_of_le hmono
  · rw [ranking_root hended hstop, ranking_span hended hpos (Nat.le_of_lt hstop)]

end Root

section Whole

variable {source : String} {query other : Query} {carry : Carry}
  (hc : query.tape.CarriesWhole carry other.tape)

include hc

theorem derives_whole {node : Node} {first stop : Nat} (h : Derives query.tape node first stop) :
    Derives query.tape node (first + carry.here) (stop + carry.here) := by
  rwa [hc.here, Nat.add_zero, Nat.add_zero]

variable (h : Query.parse source = .ok query)
  (hpipeline : other.pipeline = carry.pipeline query.pipeline)

include h hpipeline

-- The span of the whole ends where the end stands, so it may hold blanks behind the last node.
theorem root_carried : ∃ stop, 0 < stop ∧ stop < query.tape.size ∧
    (∀ pos, pos < stop → query.tape.kind pos ≠ .finish) ∧
    query.pipeline.span = ⟨query.tape.index 0, query.tape.index stop⟩ ∧
    other.pipeline.span = ⟨other.tape.index 0, other.tape.index stop⟩ := by
  obtain ⟨stop, -, hlt, hkinds, hsize, -, -, hspan⟩ := parse_spells h
  have hindex : ∀ pos, pos < query.tape.size →
      other.tape.index pos = carry.index (query.tape.index pos) := by
    intro pos hpos
    have hsame := hc.index pos (by rwa [hc.here])
    rwa [hc.here, hc.there] at hsame
  refine ⟨stop, hlt, by omega, fun pos hpos => Kind.ne_finish (hkinds pos hpos), hspan, ?_⟩
  rw [hpipeline, Carry.pipeline, hspan, hindex 0 (by omega), hindex stop (by omega)]

variable (htext : carry.text = Name.text)

include htext

theorem inventory_carried : other.inventory = query.inventory := by
  obtain ⟨end', hspells, -, -, -, -, -, -⟩ := parse_spells h
  refine inventory_relabel carry.joins (fun node hnode => ?_) (congrFun htext)
    (fun node node' hnode hnode' hplace => ?_) rfl (by rw [hpipeline]; rfl) (by rw [hpipeline]; rfl)
  · obtain ⟨first, last, -, hderives⟩ := derives_of_has hspells hnode
    exact compactText_carried hc.toCarries (congrFun htext) (derives_whole hc hderives)
  · obtain ⟨first, last, -, hderives⟩ := derives_of_has hspells hnode
    obtain ⟨first', last', -, hderives'⟩ := derives_of_has hspells hnode'
    exact span_of_place_eq hc.toCarries (derives_whole hc hderives) (derives_whole hc hderives') hplace

variable (hended : Tape.Ended query.tokens) (hended' : Tape.Ended other.tokens)

include hended hended'

-- A query that is carried over as a whole has the same tree.
theorem ranked_carried : other.ranked = query.ranked := by
  obtain ⟨stop, -, hlt, -, hroot, hroot'⟩ := root_carried hc h hpipeline
  obtain ⟨end', hspells, -, -, hsize, -, -, -⟩ := parse_spells h
  have hsizes : other.tape.size = query.tape.size := hc.sizes
  have hplaces : ∀ node, query.pipeline.Has node →
      (carry.relabel.andThen (Scan.ranking other.tokens)).place node.span =
        (Scan.ranking query.tokens).place node.span := by
    intro node hnode
    obtain ⟨first, last, hlast, hderives⟩ := derives_of_has hspells hnode
    have hspan := span_carried hc.toCarries (derives_whole hc hderives)
    rw [hc.there, Nat.add_zero, Nat.add_zero] at hspan
    rw [Relabel.place_andThen, hspan, hderives.fits.span, ranking_span hended' hderives.lt (by omega),
      ranking_span hended hderives.lt (by omega)]
  have hplace : (Scan.ranking other.tokens).place other.pipeline.span =
      (Scan.ranking query.tokens).place query.pipeline.span := by
    rw [hroot, hroot', ranking_root hended' (by omega), ranking_root hended hlt]
  have hnames : (carry.relabel.andThen (Scan.ranking other.tokens)).text =
      (Scan.ranking query.tokens).text := by
    funext name
    exact congrFun htext name
  obtain ⟨hopening, hlater⟩ := Pipeline.relabel_congr hnames hplaces
  rw [ranked, ranked, Pipeline.relabel, Pipeline.relabel, hplace, ← hopening, ← hlater, hpipeline,
    Carry.pipeline, Stage.relabel_relabel, List.map_map]
  simp only [Function.comp_def, Stage.relabel_relabel]

theorem outline_carried : other.outline = query.outline := by
  obtain ⟨stop, hstop, hlt, hkinds, hroot, hroot'⟩ := root_carried hc h hpipeline
  obtain ⟨end', hspells, -, -, -, -, -, -⟩ := parse_spells h
  have hsizes : other.tape.size = query.tape.size := hc.sizes
  have hkinds' : ∀ pos, 0 ≤ pos → pos < stop → other.tape.kind pos ≠ .finish := by
    intro pos _ hpos
    rw [hc.kinds]
    exact hkinds pos hpos
  have hwhole : other.compactText other.pipeline.span = query.compactText query.pipeline.span := by
    rw [hroot, hroot', compactText_root hended' hstop (by omega) hkinds',
      compactText_root hended hstop hlt fun pos _ => hkinds pos]
    have hbetween : other.tape.textBetween 0 (0 + stop) = query.tape.textBetween 0 (0 + stop) := by
      refine Tape.textBetween_congr fun pos hpos => ?_
      rw [Nat.zero_add]
      have hkind := hkinds pos hpos
      have hsame := text_carried hc.toCarries (congrFun htext) pos
      rw [hc.here, hc.there] at hsame
      exact hsame hkind
    rwa [Nat.zero_add] at hbetween
  have hplaced : ∀ node, query.pipeline.Has node → ∃ first stop,
      Derives query.tape node (first + carry.here) (stop + carry.here) := by
    intro node hnode
    obtain ⟨first, last, -, hderives⟩ := derives_of_has hspells hnode
    exact ⟨first, last, derives_whole hc hderives⟩
  have hopening := outlineOpening_carried hc.toCarries (congrFun htext)
    (hplaced _ (has_opening query.pipeline))
  have hlater := outlineLater_carried hc.toCarries (congrFun htext)
    fun s hs => hplaced (.stage s) (has_later hs)
  rw [outline, outline, hwhole, ← hopening, ← hlater, hpipeline, Carry.pipeline]

end Whole

end Query

end SearchPipeline
