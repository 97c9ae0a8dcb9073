import SearchPipeline.Proofs.Layout.Rank

namespace SearchPipeline

open Grammar

namespace Scan

-- A blank or a comment stands directly before an index.
def triviaBefore (tokens : List Token) : Nat → Bool
  | 0 => false
  | index + 1 => tokens[index]?.any (·.isTrivia)

-- A blank or a comment stands directly behind an index.
def triviaBehind (tokens : List Token) (index : Nat) : Bool :=
  tokens[index + 1]?.any (·.isTrivia)

-- Significant tokens of two lists have the same kind and text, and if they are stars, they have gaps
-- on the same sides.
structure Solid.Alike (tokens tokens' : List Token) (solid solid' : Solid) : Prop where
  kind : solid'.kind = solid.kind
  text : solid'.text = solid.text
  before : solid.kind = .star →
    triviaBefore tokens' solid'.index = triviaBefore tokens solid.index
  behind : solid.kind = .star →
    triviaBehind tokens' solid'.index = triviaBehind tokens solid.index

instance (tokens tokens' : List Token) (solid solid' : Solid) :
    Decidable (Solid.Alike tokens tokens' solid solid') :=
  decidable_of_iff (solid'.kind = solid.kind ∧ solid'.text = solid.text ∧
      (solid.kind = .star → triviaBefore tokens' solid'.index = triviaBefore tokens solid.index) ∧
      (solid.kind = .star → triviaBehind tokens' solid'.index = triviaBehind tokens solid.index))
    ⟨fun ⟨hkind, htext, hbefore, hbehind⟩ => ⟨hkind, htext, hbefore, hbehind⟩,
      fun ⟨hkind, htext, hbefore, hbehind⟩ => ⟨hkind, htext, hbefore, hbehind⟩⟩

-- Two lists of tokens differ only in gaps that do not matter.
def SameButGaps (tokens tokens' : List Token) : Prop :=
  List.Forall₂ (Solid.Alike tokens tokens') (solids 0 tokens) (solids 0 tokens')

instance (tokens tokens' : List Token) : Decidable (SameButGaps tokens tokens') :=
  inferInstanceAs (Decidable (List.Forall₂ _ _ _))

end Scan

namespace Grammar.Tape

section Gaps

variable (source : String) {tokens : List Token} (hended : Ended tokens) {pos : Nat}

include hended

omit hended in
-- No significant token stands between two marks that follow one another.
theorem index_succ_le {index : Nat} {token : Token} (hget : tokens[index]? = some token)
    (htrivia : token.isTrivia = false) (hbehind : (ofTokens source tokens).index pos < index)
    (hpos : pos < (ofTokens source tokens).size) :
    (ofTokens source tokens).index (pos + 1) ≤ index := by
  have hot := ofTokens_orderly source tokens
  obtain ⟨at', hat, hmark⟩ := exists_pos source hget htrivia
  have hindex : (ofTokens source tokens).index at' = index := by rw [Tape.index, hmark]
  have hlt : pos < at' := by
    by_contra hle
    have := hot.index_mono at' pos (by omega) hpos
    omega
  rw [← hindex]
  exact hot.index_mono (pos + 1) at' hlt hat

-- Two marks that follow one another do so in the list of tokens unless there is a gap.
theorem index_succ_iff_behind (hpos : pos + 1 < (ofTokens source tokens).size) :
    (ofTokens source tokens).index (pos + 1) = (ofTokens source tokens).index pos + 1 ↔
      Scan.triviaBehind tokens ((ofTokens source tokens).index pos) = false := by
  have hrise := (ofTokens_orderly source tokens).rises pos (pos + 1) (Nat.lt_succ_self pos) hpos
  obtain ⟨token, hget, htrivia⟩ := solid_of_lt source hended hpos
  constructor
  · intro hnext
    rw [Scan.triviaBehind, ← hnext, hget]
    simpa using htrivia
  · intro hgap
    have hlt := (List.getElem?_eq_some_iff.1 hget).1
    rw [Scan.triviaBehind, List.getElem?_eq_getElem (by omega)] at hgap
    have hle := index_succ_le source (List.getElem?_eq_getElem _) (by simpa using hgap)
      (Nat.lt_succ_self _) (Nat.lt_of_succ_lt hpos)
    omega

theorem index_succ_iff_before (hpos : pos + 1 < (ofTokens source tokens).size) :
    (ofTokens source tokens).index (pos + 1) = (ofTokens source tokens).index pos + 1 ↔
      Scan.triviaBefore tokens ((ofTokens source tokens).index (pos + 1)) = false := by
  have hrise := (ofTokens_orderly source tokens).rises pos (pos + 1) (Nat.lt_succ_self pos) hpos
  obtain ⟨last, hlast, -⟩ := solid_of_lt source hended hpos
  have hlt := (List.getElem?_eq_some_iff.1 hlast).1
  obtain ⟨before, hbefore⟩ : ∃ before, (ofTokens source tokens).index (pos + 1) = before + 1 :=
    ⟨_, (Nat.sub_add_cancel (by omega)).symm⟩
  rw [hbefore, Nat.add_right_cancel_iff, Scan.triviaBefore]
  constructor
  · rintro rfl
    obtain ⟨token, hget, htrivia⟩ := solid_of_lt source hended (Nat.lt_of_succ_lt hpos)
    rw [hget]
    simpa using htrivia
  · intro hgap
    rw [List.getElem?_eq_getElem (by omega)] at hgap
    by_contra hne
    have hle := index_succ_le source (List.getElem?_eq_getElem _) (by simpa using hgap)
      (show _ < before by omega) (Nat.lt_of_succ_lt hpos)
    omega

-- So whether a star is attached to its neighbours is a matter of gaps.
theorem attachedLeft_eq (hpos : pos < (ofTokens source tokens).size) :
    (ofTokens source tokens).attachedLeft pos =
      (pos > 0 && !Scan.triviaBefore tokens ((ofTokens source tokens).index pos)) := by
  cases pos with
  | zero => rfl
  | succ pos =>
      have hiff := index_succ_iff_before source hended hpos
      rw [← Bool.not_eq_true', ← beq_iff_eq] at hiff
      rw [attachedLeft, Nat.add_sub_cancel, Bool.eq_iff_iff.2 hiff]

theorem attachedRight_eq (hpos : pos + 1 < (ofTokens source tokens).size) :
    (ofTokens source tokens).attachedRight pos =
      (!Scan.triviaBehind tokens ((ofTokens source tokens).index pos) &&
        (ofTokens source tokens).kind (pos + 1) != .finish) := by
  have hiff := index_succ_iff_behind source hended hpos
  rw [← Bool.not_eq_true', ← beq_iff_eq] at hiff
  rw [attachedRight, Bool.eq_iff_iff.2 hiff]

end Gaps

-- Indices are carried over to the significant tokens of the same rank.
def byRank (tokens : List Token) (source' : String) (tokens' : List Token) : Carry where
  index index := (ofTokens source' tokens').index
    (min (Scan.rank tokens index) ((ofTokens source' tokens').size - 1))
  text := Name.text
  mono a b hab := by
    have hrank := Scan.rank_mono tokens hab
    have hsize := size_pos source' tokens'
    exact (ofTokens_orderly source' tokens').index_mono _ _ (by omega) (by omega)

section Carries

variable (source source' : String) {tokens tokens' : List Token} (hended : Ended tokens)
  (hended' : Ended tokens') (h : Scan.SameButGaps tokens tokens')

include hended hended' h

theorem size_of_alike : (ofTokens source' tokens').size = (ofTokens source tokens).size := by
  rw [size_eq_solids source' hended', size_eq_solids source hended, h.length_eq]

theorem mark_alike {pos : Nat} (hpos : pos < (ofTokens source tokens).size) :
    Scan.Solid.Alike tokens tokens' ((ofTokens source tokens).mark pos).solid
      ((ofTokens source' tokens').mark pos).solid := by
  have hsame := size_of_alike source source' hended hended' h
  rw [solid_mark source hended, solid_mark source' hended']
  rw [size_eq_solids source hended] at hpos hsame
  rw [size_eq_solids source' hended'] at hsame
  rw [List.getElem?_eq_getElem hpos, List.getElem?_eq_getElem (by omega)]
  exact h.get hpos (by omega)

theorem kind_alike (pos : Nat) :
    (ofTokens source' tokens').kind pos = (ofTokens source tokens).kind pos := by
  by_cases hpos : pos < (ofTokens source tokens).size
  · exact (mark_alike source source' hended hended' h hpos).kind
  · rw [kind_of_size_le source tokens (by omega), kind_of_size_le source' tokens']
    rw [size_of_alike source source' hended hended' h]
    omega

theorem texts_of_alike (pos : Nat) (hkind : (ofTokens source tokens).kind pos ≠ .finish) :
    ((ofTokens source' tokens').mark pos).text = ((ofTokens source tokens).mark pos).text :=
  have hpos := Nat.lt_of_succ_lt ((ofTokens_orderly source tokens).ends pos hkind)
  (mark_alike source source' hended hended' h hpos).text

-- The tapes of two lists that differ only in gaps that do not matter carry the same.
theorem carries_of_alike : (ofTokens source tokens).CarriesWhole (byRank tokens source' tokens')
    (ofTokens source' tokens') := by
  have hot := ofTokens_orderly source tokens
  have hsize := size_of_alike source source' hended hended' h
  have halike (pos : Nat) (hpos : pos < (ofTokens source tokens).size) :=
    mark_alike source source' hended hended' h hpos
  have hkind := kind_alike source source' hended hended' h
  have hlt : ∀ pos, (ofTokens source tokens).kind pos ≠ .finish →
      pos + 1 < (ofTokens source tokens).size := hot.ends
  refine ⟨⟨hot, ofTokens_orderly source' tokens', ?_, fun pos _ => .inl (hkind pos),
    fun pos hpos => ?_, fun pos use huse => ?_, fun pos _ hfinish => ?_, fun pos hstar => ?_,
    fun pos hstar => ?_⟩, rfl, rfl, hsize, hkind⟩
  · exact Nat.le_of_eq hsize.symm
  · change pos < (ofTokens source tokens).size at hpos
    change (ofTokens source' tokens').index pos = (ofTokens source' tokens').index
      (min (Scan.rank tokens ((ofTokens source tokens).index pos)) _)
    rw [rank_index source hended hpos, Nat.min_eq_left (by omega)]
  · have hfinish : (ofTokens source tokens).kind pos ≠ .finish := by
      intro hfinish
      change nameUse? ((ofTokens source tokens).kind pos) = some use at huse
      rw [hfinish] at huse
      cases huse
    exact (halike pos (Nat.lt_of_succ_lt (hlt pos hfinish))).text
  · exact (halike pos (Nat.lt_of_succ_lt (hlt pos hfinish))).text
  · have hpos := hlt pos (by rw [show (ofTokens source tokens).kind pos = .star from hstar]; decide)
    have hgap := (halike pos (Nat.lt_of_succ_lt hpos)).before hstar
    change (ofTokens source' tokens').attachedLeft pos = (ofTokens source tokens).attachedLeft pos
    rw [attachedLeft_eq source hended (by omega), attachedLeft_eq source' hended' (by omega)]
    exact congrArg (fun gap => decide (pos > 0) && !gap) hgap
  · have hpos := hlt pos (by rw [show (ofTokens source tokens).kind pos = .star from hstar]; decide)
    have hgap := (halike pos (Nat.lt_of_succ_lt hpos)).behind hstar
    change (ofTokens source' tokens').attachedRight pos = (ofTokens source tokens).attachedRight pos
    rw [attachedRight_eq source hended hpos, attachedRight_eq source' hended' (by omega),
      hkind (pos + 1)]
    exact congrArg (fun gap => !gap && _) hgap

end Carries

end Grammar.Tape

namespace Grammar

-- Where nothing but the end is on the tape, one error is all there is.
theorem pipelineWith_of_end (keep : Bool) (source : String) {tokens : List Token}
    (hsize : (Tape.ofTokens source tokens).size ≤ 1) :
    ∃ error, pipelineWith keep source tokens = .error [error] := by
  have hot := Tape.ofTokens_orderly source tokens
  have hlevel := tier_ensures hot keep maxNesting
  have hfinish : ∀ pos, (Tape.ofTokens source tokens).kind pos = .finish := by
    intro pos
    by_contra hkind
    have := hot.ends pos hkind
    omega
  have hopening := opening_ensures hot hlevel 0 {} Trail.keeps_empty
  simp only [pipelineWith_eq_tier, finish, readOpening]
  cases hreply : opening (tier keep maxNesting) (Tape.ofTokens source tokens) 0 {} with
  | done s stop trail =>
      rw [hreply] at hopening
      have hgrammatical := hopening.2.grammatical (Nat.le_refl 0) hopening.2.lt
      rw [hfinish] at hgrammatical
      cases hgrammatical
  | stuck pos trail =>
      simp only
      rw [readStages_of_finish (hfinish _)]
      cases htooDeep : trail.tooDeep with
      | some at' =>
          refine ⟨.grammatical (Position.locate source
            ((Tape.ofTokens source tokens).mark at').start) .tooDeep, ?_⟩
          simp only [Progress.fail, Trail.fresh, htooDeep]
      | none =>
          refine ⟨complaint source (Tape.ofTokens source tokens) pos trail, ?_⟩
          simp only [Progress.fail, Trail.fresh, htooDeep, List.reverse_singleton]

-- Errors on two tapes that carry the same texts say the same.
theorem message_of_carries {carry : Carry} {tape other : Tape} (hc : tape.CarriesWhole carry other)
    (htext : ∀ pos, tape.kind pos ≠ .finish → (other.mark pos).text = (tape.mark pos).text)
    {trail trail' : Trail} (htrail : trail.Carries carry tape trail') (source source' : String)
    (pos : Nat) :
    (complaint source tape pos trail).message = (complaint source' other pos trail').message := by
  have hfurthest : trail'.furthest = trail.furthest := by
    have hrel := htrail.furthest
    rw [hc.here, hc.there] at hrel
    generalize trail.furthest = furthest at hrel ⊢
    generalize trail'.furthest = furthest' at hrel ⊢
    cases hrel with
    | none => rfl
    | some hplaces =>
        obtain ⟨at', rfl, rfl⟩ := hplaces
        rfl
  have hkind := hc.kinds (trail.furthest.getD pos)
  rw [Tape.kind, Tape.kind] at hkind
  simp only [complaint, ParseError.message, hfurthest, htrail.wanted, hkind]
  by_cases hfinish : (tape.mark (trail.furthest.getD pos)).kind = .finish
  · rw [if_pos hfinish, if_pos hfinish]
  · rw [if_neg hfinish, if_neg hfinish, htext _ hfinish]

end Grammar

namespace Query

-- The same tree, with spans counted in significant tokens, and so the same outline and inventory.
structure SameTree (query other : Query) : Prop where
  ranked : other.ranked = query.ranked
  outline : other.outline = query.outline
  inventory : other.inventory = query.inventory

variable {source source' : String} {tokens tokens' : List Token}

theorem parse_of_end (h : Scan.tokens source = .ok tokens)
    (hlength : (Scan.solids 0 tokens).length = 1) : ∃ error, Query.parse source = .error [error] := by
  rw [parse_of_scan h]
  split
  · exact ⟨_, rfl⟩
  · obtain ⟨error, herror⟩ := pipelineWith_of_end true source
      (Tape.size_eq_solids source (Tape.ended_of_scan h) ▸ Nat.le_of_eq hlength)
    exact ⟨error, by rw [Grammar.pipeline, herror]; rfl⟩

theorem sameTree_of_alike (h : Scan.tokens source = .ok tokens) (h' : Scan.tokens source' = .ok tokens')
    (hsame : Scan.SameButGaps tokens tokens') {pipeline : Pipeline}
    (hparse : Query.parse source = .ok ⟨source, tokens, pipeline⟩) :
    SameTree ⟨source, tokens, pipeline⟩
      ⟨source', tokens', (Tape.byRank tokens source' tokens').pipeline pipeline⟩ := by
  have hended := Tape.ended_of_scan h
  have hended' := Tape.ended_of_scan h'
  have hc := Tape.carries_of_alike source source' hended hended' hsame
  exact ⟨ranked_carried hc hparse rfl rfl hended hended',
    outline_carried hc hparse rfl rfl hended hended', inventory_carried hc hparse rfl rfl⟩

-- Two texts whose significant tokens are the same, with the same gaps around every `*`, are read as
-- the same tree, or are both complained about as often. The complaints say the same unless one text
-- is blank and the other is not.
theorem parse_respaced (source source' : String) (tokens tokens' : List Token)
    (h : Scan.tokens source = .ok tokens) (h' : Scan.tokens source' = .ok tokens')
    (hsame : Scan.SameButGaps tokens tokens') :
    Outcomes SameTree (fun error error' =>
        Text.isBlankText source = Text.isBlankText source' → error.message = error'.message)
      (Query.parse source) (Query.parse source') := by
  by_cases hblank : Text.isBlankText source = Text.isBlankText source'
  · rw [parse_of_scan h, parse_of_scan h', ← hblank]
    split
    · exact .error (.cons (fun _ => rfl) .nil)
    next hsome =>
    have hc := Tape.carries_of_alike source source' (Tape.ended_of_scan h) (Tape.ended_of_scan h') hsame
    have htexts := Tape.texts_of_alike source source' (Tape.ended_of_scan h) (Tape.ended_of_scan h') hsame
    have hboth : Outcomes _ (fun error error' => error.message = error'.message)
        (Grammar.pipeline source tokens) (Grammar.pipeline source' tokens') :=
      pipelineWith_whole true hc
        (fun pos _ _ _ htrail => message_of_carries hc htexts htrail source source' pos)
        fun _ _ => rfl
    cases hread : Grammar.pipeline source tokens with
    | error errors =>
        rw [hread] at hboth
        generalize Grammar.pipeline source' tokens' = outcome at hboth ⊢
        cases hboth with
        | error herrors => exact .error (herrors.imp fun _ _ hmessage _ => hmessage)
    | ok pipeline =>
        have hparse : Query.parse source = .ok ⟨source, tokens, pipeline⟩ := by
          rw [parse_of_scan h, if_neg hsome, hread]
          rfl
        rw [hread] at hboth
        generalize Grammar.pipeline source' tokens' = outcome at hboth ⊢
        cases hboth with
        | ok hpipeline =>
            rw [hpipeline]
            exact .ok (sameTree_of_alike h h' hsame hparse)
  · -- one of the texts is blank, so neither has a significant token besides the end
    have hlength := hsame.length_eq
    have hone : (Scan.solids 0 tokens).length = 1 := by
      cases hempty : Text.isBlankText source with
      | true => exact Scan.length_solids_of_blank h hempty
      | false =>
          have hempty' : Text.isBlankText source' = true := by simpa [hempty] using hblank
          rw [hlength, Scan.length_solids_of_blank h' hempty']
    obtain ⟨error, herror⟩ := parse_of_end h hone
    obtain ⟨error', herror'⟩ := parse_of_end h' (hlength ▸ hone)
    rw [herror, herror']
    exact .error (.cons (fun hsame => absurd hsame hblank) .nil)

theorem parse_respaced_nested : ∃ tokens tokens',
    Scan.tokens "search a=*b* [search c]" = .ok tokens ∧
      Scan.tokens "search/* x */ a =*b*\n[ search c\t]" = .ok tokens' ∧
      Scan.SameButGaps tokens tokens' ∧
      Outcomes SameTree (fun error error' => Text.isBlankText "search a=*b* [search c]" =
          Text.isBlankText "search/* x */ a =*b*\n[ search c\t]" → error.message = error'.message)
        (Query.parse "search a=*b* [search c]")
        (Query.parse "search/* x */ a =*b*\n[ search c\t]") := by
  have hcheck : ((Scan.tokens "search a=*b* [search c]").toOption.any fun tokens =>
      (Scan.tokens "search/* x */ a =*b*\n[ search c\t]").toOption.any fun tokens' =>
        decide (Scan.SameButGaps tokens tokens')) = true := by decide +kernel
  obtain ⟨tokens, h, hcheck⟩ := ok_of_any hcheck
  obtain ⟨tokens', h', hcheck⟩ := ok_of_any hcheck
  have hsame := of_decide_eq_true hcheck
  exact ⟨tokens, tokens', h, h', hsame, parse_respaced _ _ tokens tokens' h h' hsame⟩

-- A text of blanks is said to be empty, and a comment alone is not, though neither has a significant
-- token.
theorem parse_respaced_blank : ¬ ∀ (source source' : String) (tokens tokens' : List Token),
    Scan.tokens source = .ok tokens → Scan.tokens source' = .ok tokens' →
    Scan.SameButGaps tokens tokens' →
    Outcomes SameTree (fun error error' => error.message = error'.message)
      (Query.parse source) (Query.parse source') := by
  intro hclaim
  have hcheck : ((Scan.tokens "").toOption.any fun tokens =>
      (Scan.tokens "/* c */").toOption.any fun tokens' =>
        decide (Scan.SameButGaps tokens tokens')) = true := by decide +kernel
  obtain ⟨tokens, h, hcheck⟩ := ok_of_any hcheck
  obtain ⟨tokens', h', hcheck⟩ := ok_of_any hcheck
  have hboth := hclaim _ _ tokens tokens' h h' (of_decide_eq_true hcheck)
  have hempty : Query.parse "" = .error [.emptyQuery] := rfl
  have hcomment : ((Query.parse "/* c */").map fun _ => ()).mapError (·.map ParseError.message) ≠
      .error [ParseError.emptyQuery.message] := by decide +kernel
  rw [hempty] at hboth
  generalize Query.parse "/* c */" = outcome at hboth hcomment
  cases hboth with
  | error herrors =>
      cases herrors with
      | cons hmessage hrest =>
          cases hrest with
          | nil => exact hcomment (congrArg (Except.error [·]) hmessage.symm)

end Query

end SearchPipeline
