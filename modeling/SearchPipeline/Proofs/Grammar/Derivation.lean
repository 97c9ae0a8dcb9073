import SearchPipeline.Proofs.Grammar.Parse
import SearchPipeline.Proofs.Token.Tiling

namespace SearchPipeline

open Grammar

namespace Grammar

namespace Spells

variable {tape : Tape} {parts : List Part} {node : Node} {first stop : Nat}

-- A node among the parts is derived between the ends of the whole.
theorem derives_of_mem (h : Spells tape parts first stop)
    (hmem : node ∈ parts.filterMap Part.node?) :
    ∃ a b, first ≤ a ∧ b ≤ stop ∧ Derives tape node a b := by
  induction h with
  | nil => simp at hmem
  | token _ _ ih =>
      obtain ⟨a, b, ha, hb, hnode⟩ := ih hmem
      exact ⟨a, b, by omega, hb, hnode⟩
  | skip _ ih => exact ih hmem
  | take _ _ ih =>
      obtain ⟨a, b, ha, hb, hnode⟩ := ih hmem
      exact ⟨a, b, by omega, hb, hnode⟩
  | @node inner rest pos mid stop hparts hfits hrest _ ih =>
      rcases List.mem_cons.1 hmem with rfl | hmem
      · exact ⟨pos, mid, Nat.le_refl _, hrest.le, hparts, hfits⟩
      · obtain ⟨a, b, ha, hb, hnode⟩ := ih hmem
        have := hparts.le
        exact ⟨a, b, by omega, hb, hnode⟩

theorem span_inside (h : Spells tape parts first stop) (hot : tape.Orderly)
    (hstop : stop ≤ tape.size) (hmem : node ∈ parts.filterMap Part.node?) :
    tape.index first ≤ node.span.start ∧ node.span.stop ≤ tape.index (stop - 1) + 1 := by
  obtain ⟨a, b, ha, hb, hnode⟩ := h.derives_of_mem hmem
  have hlt := hnode.lt
  have hstart := hot.index_mono first a ha (by omega)
  have hend := hot.index_mono (b - 1) (stop - 1) (by omega) (by omega)
  rw [hnode.fits.span, Tape.span_of_lt hlt]
  exact ⟨hstart, Nat.succ_le_succ hend⟩

-- The nodes among the parts follow one another.
theorem spans_rise (h : Spells tape parts first stop) (hot : tape.Orderly)
    (hstop : stop ≤ tape.size) :
    (parts.filterMap Part.node?).Pairwise fun a b => a.span.stop ≤ b.span.start := by
  induction h with
  | nil => exact List.Pairwise.nil
  | token _ _ ih => exact ih hstop
  | skip _ ih => exact ih hstop
  | take _ _ ih => exact ih hstop
  | @node inner rest pos mid stop hparts hfits hrest _ ih =>
      refine List.Pairwise.cons ?_ (ih hstop)
      intro later hmem
      obtain ⟨a, b, ha, hb, hlater⟩ := hrest.derives_of_mem hmem
      have hinner : pos < mid := (Derives.mk hparts hfits).lt
      have hlt := hlater.lt
      have hrise := hot.rises (mid - 1) a (by omega) (by omega)
      rw [hfits.span, hlater.fits.span, Tape.span_of_lt hinner, Tape.span_of_lt hlt]
      exact hrise

end Spells

end Grammar

theorem ok_of_any {ε α : Type} {result : Except ε α} {check : α → Bool}
    (h : result.toOption.any check = true) : ∃ value, result = .ok value ∧ check value = true := by
  cases result with
  | error error => cases h
  | ok value => exact ⟨value, rfl, h⟩

-- The nodes of a pipeline, at any depth.
inductive Pipeline.Has (pipeline : Pipeline) : Node → Prop where
  | stage {node : Node} : node ∈ (rootParts pipeline).filterMap Part.node? → Has pipeline node
  | inside {node child : Node} : Has pipeline node → child ∈ node.children → Has pipeline child

namespace Query

variable {source : String} {query : Query}

def tape (query : Query) : Tape := Tape.ofTokens query.source query.tokens

-- A token that is neither blank nor comment nor the end stands at an index.
def Significant (query : Query) (index : Nat) : Prop :=
  ∃ token, query.tokens[index]? = some token ∧ token.isTrivia = false ∧ token.kind ≠ .finish

-- The significant tokens in a span are what a right-hand side spells, and the nodes in it lie
-- inside the span, one behind the other.
structure Spelled (query : Query) (parts : List Part) (span : Span) : Prop where
  spells : ∃ first stop, Spells query.tape parts first stop ∧
    ∀ index, (query.Significant index ∧ span.start ≤ index ∧ index < span.stop) ↔
      ∃ pos, first ≤ pos ∧ pos < stop ∧ query.tape.index pos = index
  inside : ∀ node ∈ parts.filterMap Part.node?,
    span.start ≤ node.span.start ∧ node.span.stop ≤ span.stop
  order : (parts.filterMap Part.node?).Pairwise fun a b => a.span.stop ≤ b.span.start

-- What holds of a node of a query: the grammar derives it from the tokens of its span, which is
-- not empty, begins and ends on significant tokens and lies before the end, and what it says about
-- its own tokens is true.
structure Places (query : Query) (node : Node) : Prop where
  spelled : query.Spelled node.parts node.span
  legal : node.Legal
  nonempty : node.span.start < node.span.stop
  begins : query.Significant node.span.start
  ends : query.Significant (node.span.stop - 1)
  before : node.span.stop ≤ query.pipeline.span.stop
  text : ∀ text, node.text? = some text → text = query.compactText node.span
  use : ∀ name, node = .name name → ∃ token, query.tokens[name.span.start]? = some token ∧
    name.span.stop = name.span.start + 1 ∧ token.kind ∈ name.use.kinds

section Tokens

variable {first stop : Nat}

theorem significant_iff {index : Nat} : query.Significant index ↔
    ∃ pos, query.tape.kind pos ≠ .finish ∧ query.tape.index pos = index := by
  constructor
  · rintro ⟨token, hget, htrivia, hkind⟩
    obtain ⟨pos, -, hmark⟩ := Tape.exists_pos query.source hget htrivia
    refine ⟨pos, ?_, ?_⟩
    · rwa [Tape.kind, tape, hmark]
    · rw [Tape.index, tape, hmark]
  · rintro ⟨pos, hkind, rfl⟩
    obtain ⟨token, hget, htrivia, hsame, -⟩ := Tape.token_of_kind hkind
    exact ⟨token, hget, htrivia, by rwa [hsame]⟩

-- The significant tokens from a mark to a bound behind another one are the marks between them.
theorem significant_between_iff {index bound : Nat} (hlt : first < stop)
    (hkind : ∀ pos, first ≤ pos → pos < stop → query.tape.kind pos ≠ .finish)
    (hwithin : query.tape.index (stop - 1) < bound)
    (hbehind : ∀ pos, stop ≤ pos → query.tape.kind pos ≠ .finish → bound ≤ query.tape.index pos) :
    (query.Significant index ∧ query.tape.index first ≤ index ∧ index < bound) ↔
      ∃ pos, first ≤ pos ∧ pos < stop ∧ query.tape.index pos = index := by
  have hot : query.tape.Orderly := Tape.ofTokens_orderly query.source query.tokens
  have hsize := hot.ends (stop - 1) (hkind _ (by omega) (by omega))
  rw [significant_iff]
  constructor
  · rintro ⟨⟨pos, hpos, rfl⟩, hstart, hend⟩
    refine ⟨pos, ?_, ?_, rfl⟩
    · by_contra hbefore
      have := hot.rises pos first (by omega) (by omega)
      omega
    · by_contra hge
      have := hbehind pos (by omega) hpos
      omega
  · rintro ⟨pos, hfirst, hstop, rfl⟩
    have hstart := hot.index_mono first pos hfirst (by omega)
    have hend := hot.index_mono pos (stop - 1) (by omega) (by omega)
    exact ⟨⟨pos, hkind pos hfirst hstop, rfl⟩, hstart, by omega⟩

-- The significant tokens before an index are those that a prefix of the list leaves.
theorem filter_take (tokens : List Token) (count : Nat) :
    (tokens.take count).filter (!·.isTrivia) = (tokens.filter (!·.isTrivia)).take
      ((tokens.take count).filter (!·.isTrivia)).length := by
  conv_rhs => rw [← List.take_append_drop count tokens, List.filter_append]
  rw [List.take_append_drop, List.take_left]

theorem compactText_span (hlt : first < stop)
    (hkind : ∀ pos, first ≤ pos → pos < stop → query.tape.kind pos ≠ .finish) :
    query.compactText (query.tape.span first stop) = query.tape.textBetween first stop := by
  have hot : query.tape.Orderly := Tape.ofTokens_orderly query.source query.tokens
  have hlast := hkind (stop - 1) (by omega) (by omega)
  have hends := hot.ends _ hlast
  have hmono := hot.index_mono first (stop - 1) (by omega) (by omega)
  have hbefore := Tape.length_take_index (hkind first (Nat.le_refl _) hlt)
  have hwithin : ((query.tokens.take (query.tape.index (stop - 1) + 1)).filter
      (!·.isTrivia)).length = stop := by
    obtain ⟨token, hget, htrivia, -, -⟩ := Tape.token_of_kind hlast
    have hcount := Tape.length_take_index hlast
    change query.tokens[query.tape.index (stop - 1)]? = _ at hget
    change ((query.tokens.take (query.tape.index (stop - 1))).filter _).length = _ at hcount
    rw [List.take_add_one, hget, List.filter_append, List.length_append, hcount]
    simp [htrivia]
    omega
  -- the tokens of the span are those of a longer prefix without those of a shorter one
  have hsplit : (query.tokens.take (query.tape.index (stop - 1) + 1)).filter (!·.isTrivia) =
      (query.tokens.take (query.tape.index first)).filter (!·.isTrivia) ++
        (query.tokensIn (query.tape.span first stop)).filter (!·.isTrivia) := by
    rw [← List.filter_append, tokensIn, Tape.span_of_lt hlt, ← List.take_add]
    congr 2
    simp only
    omega
  have htexts : ((query.tokensIn (query.tape.span first stop)).filter (!·.isTrivia)).map (·.text) =
      (((Tape.marksOf query.tokens).map (·.text)).take stop).drop first := by
    have hprefix := filter_take query.tokens (query.tape.index (stop - 1) + 1)
    rw [hwithin] at hprefix
    rw [Tape.marksOf_texts, ← List.map_take, ← List.map_drop, ← hprefix, hsplit]
    exact congrArg _ (List.drop_left' hbefore).symm
  rw [compactText, htexts, Tape.textBetween]
  congr 1
  apply List.ext_getElem?
  intro count
  by_cases hcount : count < stop - first
  · have hget := Tape.marksOf_getElem (hkind (first + count) (by omega) (by omega))
    rw [List.getElem?_drop, List.getElem?_take_of_lt (by omega), List.getElem?_map, hget,
      List.getElem?_map, List.getElem?_range' hcount]
    simp [tape]
  · rw [List.getElem?_eq_none (by simp; omega), List.getElem?_eq_none (by simp; omega)]

end Tokens

theorem parse_eq_ok (h : Query.parse source = .ok query) :
    query.source = source ∧ Scan.tokens source = .ok query.tokens ∧
      Grammar.pipeline source query.tokens = .ok query.pipeline := by
  unfold Query.parse at h
  split at h
  · cases h
  simp only [bind, Except.bind] at h
  split at h
  · cases h
  next tokens htokens =>
  split at h
  · cases h
  next pipeline hpipeline =>
  cases h
  refine ⟨rfl, ?_, hpipeline⟩
  unfold Scan.tokensOrErrors at htokens
  cases hscan : Scan.tokens source with
  | error mistakes =>
      rw [hscan] at htokens
      cases htokens
  | ok found =>
      rw [hscan] at htokens
      cases htokens
      rfl

-- What the marks of a query that is read spell, from the first one to the end.
theorem parse_spells (h : Query.parse source = .ok query) :
    ∃ stop, Spells query.tape (rootParts query.pipeline) 0 stop ∧ 0 < stop ∧
      (∀ pos, pos < stop → (query.tape.kind pos).isGrammatical = true) ∧
      stop + 1 = query.tape.size ∧ query.tape.kind stop = .finish ∧
      query.tape.index stop + 1 = query.tokens.length ∧
      query.pipeline.span = ⟨query.tape.index 0, query.tape.index stop⟩ := by
  obtain ⟨rfl, hscan, hpipeline⟩ := parse_eq_ok h
  obtain ⟨stop, hspells, hend, hspan⟩ := pipelineWith_spells hpipeline
  have hplain : ∀ part ∈ rootParts query.pipeline, part.Plain := by
    rintro part (_ | ⟨_, hmem⟩)
    · trivial
    · exact (flat_later _ part hmem).plain
  have hlt : 0 < stop := hspells.lt_of_solid ⟨_, List.mem_cons_self, rfl⟩
  have hkinds : ∀ pos, pos < stop → (query.tape.kind pos).isGrammatical = true :=
    fun pos hpos => hspells.grammatical hplain (Nat.zero_le pos) hpos
  have hot : query.tape.Orderly := Tape.ofTokens_orderly query.source query.tokens
  have hbound := hot.ends (stop - 1) (Kind.ne_finish (hkinds _ (by omega)))
  obtain ⟨before, last, htokens, hlast, hbefore⟩ := (Scan.tokens_eq_ok_iff.1 hscan).ends
  have hfinish := Tape.finish_of_concat query.source hlast hbefore stop
  rw [← htokens] at hfinish
  obtain ⟨hsize, hindex⟩ := hfinish (by change stop < query.tape.size; omega) hend
  refine ⟨stop, hspells, hlt, hkinds, hsize, hend, ?_, hspan⟩
  change query.tape.index stop = _ at hindex
  rw [hindex, htokens]
  simp

-- A node derived before the end is placed as it should be.
theorem places_of_derives {node : Node} {first stop : Nat} (h : Derives query.tape node first stop)
    (hbefore : node.span.stop ≤ query.pipeline.span.stop) : query.Places node := by
  have hot : query.tape.Orderly := Tape.ofTokens_orderly query.source query.tokens
  have hlt := h.lt
  have hkind : ∀ pos, first ≤ pos → pos < stop → query.tape.kind pos ≠ .finish :=
    fun pos hfirst hstop => Kind.ne_finish (h.grammatical hfirst hstop)
  have hsize := hot.ends (stop - 1) (hkind _ (by omega) (by omega))
  have hspan : node.span = ⟨query.tape.index first, query.tape.index (stop - 1) + 1⟩ := by
    rw [h.fits.span, Tape.span_of_lt hlt]
  refine
    { spelled := ⟨⟨first, stop, h.spells, fun index => ?_⟩, fun child hchild => ?_,
        h.spells.spans_rise hot (by omega)⟩
      legal := h.fits.legal
      nonempty := ?_, begins := ?_, ends := ?_, before := hbefore, text := ?_, use := ?_ }
  · rw [hspan]
    refine significant_between_iff hlt hkind (Nat.lt_succ_self _) fun pos hstop hpos => ?_
    have hbound := hot.ends pos hpos
    exact hot.rises (stop - 1) pos (by omega) (by omega)
  · rw [hspan]
    exact h.spells.span_inside hot (by omega) hchild
  · have hmono := hot.index_mono first (stop - 1) (by omega) (by omega)
    rw [hspan]
    exact Nat.lt_succ_of_le hmono
  · rw [hspan]
    exact significant_iff.2 ⟨first, hkind first (Nat.le_refl _) hlt, rfl⟩
  · rw [hspan]
    exact significant_iff.2 ⟨stop - 1, hkind _ (by omega) (by omega), rfl⟩
  · intro text htext
    rw [h.fits.span, compactText_span hlt hkind]
    exact h.fits.text text htext
  · rintro name rfl
    have hspells := h.spells
    simp only [Node.parts, Spells.token_iff, Spells.nil_iff] at hspells
    obtain ⟨hmem, rfl⟩ := hspells
    obtain ⟨token, hget, -, hsame, -⟩ := Tape.token_of_kind (hkind first (Nat.le_refl _) hlt)
    change name.span = _ at hspan
    rw [hspan]
    refine ⟨token, hget, rfl, ?_⟩
    rwa [hsame]

-- What holds of the whole: the pipeline spells every significant token, and its span ends where
-- the end of the query stands, behind all of them.
structure Covered (query : Query) : Prop where
  spelled : query.Spelled (rootParts query.pipeline) query.pipeline.span
  all : ∀ index, query.Significant index →
    query.pipeline.span.start ≤ index ∧ index < query.pipeline.span.stop
  finish : ∃ token, query.tokens[query.pipeline.span.stop]? = some token ∧ token.kind = .finish
  last : query.pipeline.span.stop + 1 = query.tokens.length

theorem covered_of_parse (h : Query.parse source = .ok query) : query.Covered := by
  have hot : query.tape.Orderly := Tape.ofTokens_orderly query.source query.tokens
  obtain ⟨stop, hspells, hlt, hkinds, hsize, hend, hlength, hspan⟩ := parse_spells h
  obtain ⟨before, last, htokens, hlast, -⟩ :=
    (Scan.tokens_eq_ok_iff.1 (parse_eq_ok h).2.1).ends
  have hrise := hot.rises (stop - 1) stop (by omega) (by omega)
  -- no significant token stands behind the end
  have hbehind : ∀ pos, stop ≤ pos → query.tape.kind pos = .finish := by
    intro pos hpos
    by_contra hkind
    have := hot.ends pos hkind
    omega
  have hbetween : ∀ index, (query.Significant index ∧ query.tape.index 0 ≤ index ∧
      index < query.tape.index stop) ↔ ∃ pos, 0 ≤ pos ∧ pos < stop ∧ query.tape.index pos = index :=
    fun index => significant_between_iff hlt (fun pos _ hpos => Kind.ne_finish (hkinds pos hpos))
      hrise (fun pos hpos hkind => absurd (hbehind pos hpos) hkind)
  refine ⟨⟨⟨0, stop, hspells, ?_⟩, fun node hnode => ?_, hspells.spans_rise hot (by omega)⟩, ?_, ?_, ?_⟩
  · rw [hspan]
    exact hbetween
  · have hinside := hspells.span_inside hot (by omega) hnode
    rw [hspan]
    exact ⟨hinside.1, by simp only; omega⟩
  · intro index hindex
    obtain ⟨pos, hkind, rfl⟩ := significant_iff.1 hindex
    have hpos : pos < stop := by
      by_contra hge
      exact hkind (hbehind pos (by omega))
    rw [hspan]
    exact ((hbetween _).2 ⟨pos, Nat.zero_le _, hpos, rfl⟩).2
  · rw [htokens, List.length_append, List.length_singleton] at hlength
    refine ⟨last, ?_, hlast⟩
    rw [hspan, htokens]
    simp [show query.tape.index stop = before.length by omega]
  · rw [hspan]
    exact hlength

-- Every node of a pipeline is derived between the first mark and the end.
theorem derives_of_has {tape : Tape} {pipeline : Pipeline} {node : Node} {stop : Nat}
    (h : Spells tape (rootParts pipeline) 0 stop) (hnode : pipeline.Has node) :
    ∃ a b, b ≤ stop ∧ Derives tape node a b := by
  induction hnode with
  | stage hmem =>
      obtain ⟨a, b, -, hb, hderives⟩ := h.derives_of_mem hmem
      exact ⟨a, b, hb, hderives⟩
  | inside _ hchild ih =>
      obtain ⟨a, b, hb, hderives⟩ := ih
      obtain ⟨c, d, -, hd, hinner⟩ := hderives.spells.derives_of_mem hchild
      exact ⟨c, d, by omega, hinner⟩

theorem places_of_has (h : Query.parse source = .ok query) {node : Node}
    (hnode : query.pipeline.Has node) : query.Places node := by
  have hot : query.tape.Orderly := Tape.ofTokens_orderly query.source query.tokens
  obtain ⟨stop, hspells, -, -, hsize, -, -, hspan⟩ := parse_spells h
  obtain ⟨a, b, hb, hderives⟩ := derives_of_has hspells hnode
  have hlt := hderives.lt
  have hrise := hot.rises (b - 1) stop (by omega) (by omega)
  refine places_of_derives hderives ?_
  rw [hderives.fits.span, Tape.span_of_lt hlt, hspan]
  exact hrise

-- What a query is read as can be checked by reading it.
theorem parse_of_any {check : Query → Bool}
    (h : (Query.parse source).toOption.any check = true) :
    ∃ query, Query.parse source = .ok query ∧ check query = true := ok_of_any h

end Query

end SearchPipeline
