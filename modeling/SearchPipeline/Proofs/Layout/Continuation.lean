import SearchPipeline.Proofs.Grammar.Continuation
import SearchPipeline.Proofs.Layout.Rank

namespace SearchPipeline

open Grammar
open Scan (solids Continues)

namespace Query

variable {source : String} {query first tail whole : Query}

-- The stages of a query on its tape. At its end no bracket is open.
theorem parse_reads (h : Query.parse source = .ok query) : ∃ mid stop,
    query.tape.Reads query.pipeline.opening query.pipeline.later mid stop ∧
      0 < stop ∧ stop + 1 = query.tape.size ∧
      ∀ before ≤ stop, query.tape.height stop ≤ query.tape.height before := by
  obtain ⟨rfl, hscan, hpipeline⟩ := parse_eq_ok h
  obtain ⟨mid, stop, hreads⟩ := pipelineWith_reads hpipeline
  obtain ⟨stop', hspells, hpos, hkinds, hsize, -, -, -⟩ := parse_spells h
  have hot : query.tape.Orderly := Tape.ofTokens_orderly query.source query.tokens
  have hlt : stop < query.tape.size := (hreads.chain.derives hot).2.1 (hreads.derives.lt_size hot)
  obtain rfl : stop = stop' := by
    by_contra hne
    exact Kind.ne_finish (hkinds stop (by omega)) hreads.ends
  have hbalances : query.tape.Balances 0 stop := by
    apply hspells.balances
    exact List.forall_mem_cons.2 ⟨trivial, flat_later _⟩
  refine ⟨mid, stop, hreads, hpos, hsize, fun before hbefore => ?_⟩
  rw [hbalances.level]
  exact hbalances.above before (Nat.zero_le _) hbefore

-- A query whose stages are those of another, and behind them the later ones of a third, each carried
-- over from the tape where it was read.
structure Extends (query tail whole : Query) (carry carry' : Carry) : Prop where
  front : query.tape.Carries carry whole.tape
  behind : tail.tape.Carries carry' whole.tape
  text : carry.text = Name.text
  text' : carry'.text = Name.text
  here : carry.here = 0
  derives : ∀ s ∈ tail.pipeline.later, ∃ a b,
    Derives tail.tape (.stage s) (a + carry'.here) (b + carry'.here)
  opening : whole.pipeline.opening = query.pipeline.opening.relabel carry.relabel
  later : whole.pipeline.later = query.pipeline.later.map (·.relabel carry.relabel) ++
    tail.pipeline.later.map (·.relabel carry'.relabel)

-- What goes on behind a query of one stage goes on behind every query.
theorem exists_extends {other rest : String} (h : Query.parse source = .ok query)
    (hfirst : Query.parse other = .ok first) (hnone : first.pipeline.later = [])
    (htail : Query.parse (other ++ "\n| " ++ rest) = .ok tail) :
    ∃ whole carry carry', Query.parse (source ++ "\n| " ++ rest) = .ok whole ∧
      Extends query tail whole carry carry' := by
  obtain ⟨mid, stop, hreads, hpos, hsize, hlow⟩ := parse_reads h
  obtain ⟨mid₁, stop₁, hreads₁, -, hsize₁, hlow₁⟩ := parse_reads hfirst
  obtain ⟨mid', stop', hreads', -, -, -⟩ := parse_reads htail
  obtain ⟨rfl, hscan, -⟩ := parse_eq_ok h
  obtain ⟨rfl, hscan₁, -⟩ := parse_eq_ok hfirst
  obtain ⟨-, hscan', -⟩ := parse_eq_ok htail
  obtain ⟨all, front, front', behind, hall, hfront, hfront'⟩ :=
    Scan.tokens_continued hscan hscan₁ hscan'
  have hended := Tape.ended_of_scan hscan
  have hended₁ := Tape.ended_of_scan hscan₁
  have hended' := Tape.ended_of_scan hscan'
  have hall' := Tape.ended_of_scan hall
  have hstop : (solids 0 front).length = stop := by
    have := Tape.size_of_continues hfront query.source hended
    change query.tape.size = _ at this
    omega
  have hstop₁ : (solids 0 front').length = stop₁ := by
    have := Tape.size_of_continues hfront' first.source hended₁
    change first.tape.size = _ at this
    omega
  have hc : query.tape.Carries _ (Tape.ofTokens (query.source ++ "\n| " ++ rest) all) :=
    Tape.carries_front hfront query.source _ hended hall' (hstop ▸ hlow)
  have hc₁ : first.tape.Carries _ tail.tape :=
    Tape.carries_front hfront' first.source _ hended₁ hended' (hstop₁ ▸ hlow₁)
  have hc' : tail.tape.Carries _ (Tape.ofTokens (query.source ++ "\n| " ++ rest) all) :=
    Tape.carries_behind hfront hfront' _ tail.source hall' hended'
  have hend : ∀ pos, tail.tape.kind (pos + (solids 0 front').length) = .finish →
      (Tape.ofTokens (query.source ++ "\n| " ++ rest) all).kind (pos + (solids 0 front).length) = .finish :=
    fun pos => Tape.finish_moved hfront hfront' _ tail.source hall' hended'
  have hmid : (solids 0 front').length = mid' := by
    rw [hnone] at hreads₁
    exact hstop₁.trans (hreads₁.opens_other hreads' hc₁ rfl rfl)
  have hbehind : ∀ pos, (Tape.ofTokens (query.source ++ "\n| " ++ rest) all).size ≤ pos →
      (Tape.ofTokens (query.source ++ "\n| " ++ rest) all).kind pos = .finish :=
    fun _ => Tape.kind_of_size_le _ all
  obtain ⟨span, hpipeline⟩ := finish_continued (query.source ++ "\n| " ++ rest) hreads hreads' hc hc'
    rfl rfl hmid hstop hbehind hend
  have hsome : 1 < (solids 0 all).length := by
    rw [hfront.solids, List.length_append, List.length_map, List.length_cons]
    omega
  have hwhole := (Grammar.pipelineWith_eq_tier true _ all).trans hpipeline
  refine ⟨_, _, _, parse_of_tokens hall hsome hwhole, hc, hc', rfl, rfl, rfl, ?_, rfl, rfl⟩
  intro s hs
  obtain ⟨a, b, ha, hderives⟩ := (hreads'.chain.derives hc'.orderly).2.2 s hs
  have hlt := hderives.lt
  refine ⟨a - mid', b - mid', ?_⟩
  change Derives tail.tape _ (a - mid' + (solids 0 front').length) (b - mid' + (solids 0 front').length)
  rwa [hmid, Nat.sub_add_cancel ha, Nat.sub_add_cancel (by omega)]

-- Stages are read independently: what can be read as the later stages of a query can follow any query,
-- and the stages of both are in the outline of the longer one as they were in their own.
theorem parse_continued (source rest : String) (query tail : Query)
    (hquery : Query.parse source = .ok query) (htail : Query.parse ("x\n| " ++ rest) = .ok tail) :
    ∃ whole, Query.parse (source ++ "\n| " ++ rest) = .ok whole ∧
      whole.outline.children = query.outline.children ++ tail.outline.children.tail := by
  have hread : (Query.parse "x").toOption.any (·.pipeline.later.isEmpty) = true := by decide +kernel
  obtain ⟨first, hfirst, hnone⟩ := parse_of_any hread
  obtain ⟨whole, carry, carry', hwhole, hextends⟩ :=
    exists_extends hquery hfirst (List.isEmpty_iff.1 hnone) htail
  refine ⟨whole, hwhole, ?_⟩
  obtain ⟨end', hspells, -, -, -, -, -, -⟩ := parse_spells hquery
  have hplaced : ∀ node, query.pipeline.Has node → ∃ a b,
      Derives query.tape node (a + carry.here) (b + carry.here) := by
    intro node hnode
    obtain ⟨a, b, -, hderives⟩ := derives_of_has hspells hnode
    refine ⟨a, b, ?_⟩
    rwa [hextends.here]
  have hopening := outlineOpening_carried hextends.front (congrFun hextends.text)
    (hplaced _ (has_opening query.pipeline))
  have hlater := outlineLater_carried hextends.front (congrFun hextends.text)
    fun s hs => hplaced (.stage s) (has_later hs)
  have hbehind := outlineLater_carried hextends.behind (congrFun hextends.text') hextends.derives
  rw [outlineStages_eq, outlineStages_eq] at hlater hbehind
  simp only [outline, Outline.children, hextends.opening, hextends.later, outlineStages_eq,
    List.map_append, hopening, hlater, hbehind, List.tail_cons, List.cons_append]

-- The comment runs to the end of its line, and so no further than the query.
theorem parse_continued_commented : ∃ query tail,
    Query.parse "search a=b* [search c | head 1] // all" = .ok query ∧
      Query.parse ("x\n| " ++ "stats count by f | where g=*h") = .ok tail ∧
      ∃ whole, Query.parse ("search a=b* [search c | head 1] // all" ++ "\n| " ++
          "stats count by f | where g=*h") = .ok whole ∧
        whole.outline.children = query.outline.children ++ tail.outline.children.tail := by
  have hread : (Query.parse "search a=b* [search c | head 1] // all").toOption.any
      (fun _ => true) = true := by decide +kernel
  have hbehind : (Query.parse ("x\n| " ++ "stats count by f | where g=*h")).toOption.any
      (fun _ => true) = true := by decide +kernel
  obtain ⟨query, hquery, -⟩ := parse_of_any hread
  obtain ⟨tail, htail, -⟩ := parse_of_any hbehind
  exact ⟨query, tail, hquery, htail, parse_continued _ _ query tail hquery htail⟩

end Query

end SearchPipeline
