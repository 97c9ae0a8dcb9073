import SearchPipeline.Proofs.Grammar.Derivation
import SearchPipeline.Proofs.Grammar.Recovery
import SearchPipeline.Proofs.Token.Placement
import SearchPipeline.Proofs.Token.Trimming

namespace SearchPipeline

theorem Text.trimmed_eq_empty_iff (text : String) :
    Text.trimmed text = "" ↔ Text.isBlankText text = true := by
  have hlist : Text.trimmed text = "" ↔ Text.trim text.toList = [] := by
    rw [Text.trimmed, String.ofList_eq_empty_iff]
  rw [hlist, Text.isBlankText, List.all_eq_true]
  generalize text.toList = cs
  constructor
  · intro hnil
    obtain ⟨tail, hstart, htail, -⟩ := Text.trimEnd_spec (Text.trimStart cs)
    rw [Text.trim] at hnil
    rw [hnil, List.nil_append] at hstart
    intro c hc
    rw [← List.takeWhile_append_dropWhile (p := Text.isBlank) (l := cs)] at hc
    rcases List.mem_append.1 hc with hc | hc
    · exact List.mem_takeWhile_imp hc
    · change c ∈ Text.trimStart cs at hc
      rw [hstart] at hc
      exact htail c hc
  · intro hblank
    have hnil : Text.trimStart cs = [] := List.dropWhile_eq_nil_iff.2 hblank
    rw [Text.trim, hnil]
    rfl

namespace ParseError

-- The error stands at a place between two characters of the text.
def Placed (source : String) (error : ParseError) : Prop :=
  ∃ offset, String.Pos.Raw.IsValid source ⟨offset⟩ ∧
    error.position? = some (Position.locate source offset)

def Precedes (a b : ParseError) : Prop :=
  ∃ first second, a.position? = some first ∧ b.position? = some second ∧ first.Before second

instance : IsTrans ParseError Precedes where
  trans := by
    rintro a b c ⟨first, second, ha, hb, hlt⟩ ⟨second', third, hb', hc, hlt'⟩
    obtain rfl : second = second' := Option.some.inj (hb.symm.trans hb')
    exact ⟨first, third, ha, hc, hlt.trans hlt'⟩

-- The error complains about a token, where the token begins.
def Blames (source : String) (tokens : List Token) (error : ParseError) (index : Nat) : Prop :=
  ∃ token complaint, tokens[index]? = some token ∧
    error = .grammatical (Position.locate source token.start) complaint

-- A `|` stands at or behind the token that one error complains about, and before that of the other.
def Apart (source : String) (tokens : List Token) (a b : ParseError) : Prop :=
  ∃ first bar second, a.Blames source tokens first ∧ b.Blames source tokens second ∧
    first ≤ bar ∧ bar < second ∧ tokens[bar]?.map (·.kind) = some .pipe

variable {source : String} {tokens : List Token}

theorem Apart.precedes (hscan : Scan.tokens source = .ok tokens) {a b : ParseError}
    (h : a.Apart source tokens b) : a.Precedes b := by
  obtain ⟨first, bar, second, ⟨token, complaint, hfirst, rfl⟩, ⟨token', complaint', hsecond, rfl⟩,
    hle, hlt, -⟩ := h
  obtain ⟨hrises, hvalid⟩ := Scan.tokens_placed hscan
  refine ⟨_, _, rfl, rfl, ?_⟩
  apply Position.locate_before (hvalid _ (List.mem_of_getElem? hfirst))
    (hvalid _ (List.mem_of_getElem? hsecond))
  obtain ⟨hfirst, rfl⟩ := List.getElem?_eq_some_iff.1 hfirst
  obtain ⟨hsecond, rfl⟩ := List.getElem?_eq_some_iff.1 hsecond
  exact List.pairwise_iff_getElem.1 hrises first second _ _ (by omega)

end ParseError

-- What may be said of a query that cannot be read.
inductive Query.Report (source : String) : List ParseError → Prop where
  | empty : Text.trimmed source = "" → Report source [.emptyQuery]
  | lexical {errors : List ParseError} : Text.trimmed source ≠ "" → errors ≠ [] →
      (∀ error ∈ errors, ∃ position flaw, error = .lexical position flaw) →
      (∀ error ∈ errors, error.Placed source) → errors.Pairwise ParseError.Precedes →
      Report source errors
  | grammatical {errors : List ParseError} {tokens : List Token} : Text.trimmed source ≠ "" →
      errors ≠ [] → (∀ error ∈ errors, ∃ position complaint, error = .grammatical position complaint) →
      (∀ error ∈ errors, error.Placed source) → errors.Pairwise ParseError.Precedes →
      Scan.tokens source = .ok tokens → errors.IsChain (ParseError.Apart source tokens) →
      Report source errors

theorem Scan.mistakes_report {source : String} {wrong : List Mistake}
    (hscan : Scan.tokens source = .error wrong) (hblank : Text.trimmed source ≠ "") :
    Query.Report source (wrong.map (ParseError.ofMistake source)) := by
  obtain ⟨hne, hrises, hvalid⟩ := Scan.mistakes_placed hscan
  refine .lexical hblank (by simpa using hne) ?_ ?_ ?_
  · intro error hmem
    obtain ⟨mistake, -, rfl⟩ := List.mem_map.1 hmem
    exact ⟨_, mistake.flaw, rfl⟩
  · intro error hmem
    obtain ⟨mistake, hmistake, rfl⟩ := List.mem_map.1 hmem
    exact ⟨mistake.start, hvalid mistake hmistake, rfl⟩
  · refine List.pairwise_map.2 (hrises.imp_of_mem fun hfirst hsecond hlt => ?_)
    exact ⟨_, _, rfl, rfl, Position.locate_before (hvalid _ hfirst) (hvalid _ hsecond) hlt⟩

namespace Grammar

variable {source : String} {tokens : List Token} (hscan : Scan.tokens source = .ok tokens)

include hscan

-- Each mark of the tape of a text is a token of the text.
theorem Tape.token_of_lt {pos : Nat} (h : pos < (ofTokens source tokens).size) :
    ∃ token, tokens[(ofTokens source tokens).index pos]? = some token ∧
      token.kind = (ofTokens source tokens).kind pos ∧
      token.start = ((ofTokens source tokens).mark pos).start := by
  obtain ⟨before, last, htokens, hlast, -⟩ := (Scan.tokens_eq_ok_iff.1 hscan).ends
  have hmarks := marks_of_concat source before hlast
  rw [← htokens] at hmarks
  have hmem : (ofTokens source tokens).mark pos ∈ marksOf tokens := by
    have hget := Array.mem_of_getElem? (mark_of_lt h)
    rw [hmarks] at hget
    exact List.mem_toArray.1 hget
  obtain ⟨token, hget, -, hmark⟩ := mem_marksOf.1 hmem
  refine ⟨token, hget, ?_, ?_⟩
  · rw [kind, hmark]
  · rw [hmark]

-- Behind the tape stands the end of the text.
theorem Tape.mark_valid (pos : Nat) :
    String.Pos.Raw.IsValid source ⟨((ofTokens source tokens).mark pos).start⟩ := by
  by_cases hpos : pos < (ofTokens source tokens).size
  · obtain ⟨token, hget, -, hstart⟩ := token_of_lt hscan hpos
    rw [← hstart]
    exact (Scan.tokens_placed hscan).2 token (List.mem_of_getElem? hget)
  · have hmark : ((ofTokens source tokens).mark pos).start = source.utf8ByteSize := by
      rw [mark, Array.getElem?_eq_none (Nat.le_of_not_lt hpos), Option.getD_none]
      unfold ofTokens
      simp only
      split <;> rfl
    rw [hmark]
    exact String.Pos.Raw.isValid_rawEndPos

theorem ComplainsAt.blames {error : ParseError} {pos : Nat}
    (h : ComplainsAt source (Tape.ofTokens source tokens) error pos) :
    error.Blames source tokens ((Tape.ofTokens source tokens).index pos) := by
  obtain ⟨hpos, complaint, rfl⟩ := h
  obtain ⟨token, hget, -, hstart⟩ := Tape.token_of_lt hscan hpos
  exact ⟨token, complaint, hget, by rw [hstart]⟩

-- Where a `|` divides two places of the tape, it divides the tokens.
theorem Separate.apart {later earlier : ParseError}
    (h : Separate source (Tape.ofTokens source tokens) later earlier) :
    earlier.Apart source tokens later := by
  have hot := Tape.ofTokens_orderly source tokens
  obtain ⟨first, second, hearlier, hlater, bar, hle, hlt, hkind⟩ := h
  have hbar : bar < (Tape.ofTokens source tokens).size := Nat.lt_trans hlt hlater.1
  obtain ⟨token, hget, htoken, -⟩ := Tape.token_of_lt hscan hbar
  exact ⟨_, _, _, hearlier.blames hscan, hlater.blames hscan, hot.index_mono first bar hle hbar,
    hot.rises bar second hlt hlater.1, by rw [hget, Option.map_some, htoken, hkind]⟩

-- The errors of a pipeline that cannot be read, once they are turned round.
theorem Progress.Accounts.report {progress : Progress}
    (h : progress.Accounts source (Tape.ofTokens source tokens))
    (hblank : Text.trimmed source ≠ "")
    (hnot : ∀ opening, progress.opening = some opening → progress.errors = [] → False) :
    Query.Report source progress.errors.reverse := by
  have hchain : progress.errors.reverse.IsChain (ParseError.Apart source tokens) :=
    List.isChain_reverse.2 (h.chain.imp fun _ _ hseparate => hseparate.apart hscan)
  refine .grammatical hblank ?_ ?_ ?_ ?_ hscan hchain
  · intro hnil
    rw [List.reverse_eq_nil_iff] at hnil
    cases hopening : progress.opening with
    | none => exact h.opened hopening hnil
    | some opening => exact hnot opening hopening hnil
  · intro error hmem
    obtain ⟨pos, -, complaint, rfl⟩ := h.each error (List.mem_reverse.1 hmem)
    exact ⟨_, complaint, rfl⟩
  · intro error hmem
    obtain ⟨pos, -, complaint, rfl⟩ := h.each error (List.mem_reverse.1 hmem)
    exact ⟨_, Tape.mark_valid hscan pos, rfl⟩
  · exact (hchain.imp fun _ _ hapart => hapart.precedes hscan).pairwise

theorem pipeline_report (hblank : Text.trimmed source ≠ "") {errors : List ParseError}
    (h : pipeline source tokens = .error errors) : Query.Report source errors := by
  have hot := Tape.ofTokens_orderly source tokens
  have hbehind : ∀ pos, (Tape.ofTokens source tokens).size ≤ pos →
      (Tape.ofTokens source tokens).kind pos = .finish :=
    fun _ => Tape.kind_of_size_le source tokens
  rw [pipeline, pipelineWith_eq_tier] at h
  simp only [finish] at h
  split at h
  · next pos hdeep =>
    obtain rfl := Except.error.inj h
    refine .grammatical hblank (List.cons_ne_nil _ _) (by simp) ?_ (List.pairwise_singleton _ _)
      hscan (.singleton _)
    intro error hmem
    obtain rfl := List.mem_singleton.1 hmem
    exact ⟨_, Tape.mark_valid hscan pos, rfl⟩
  · next hshallow =>
    have hopening : (readOpening (tier true maxNesting) source
        (Tape.ofTokens source tokens)).trail.tooDeep = none := by
      by_contra hdeep
      exact readStages_deep _ hdeep hshallow
    have haccounts := readStages_accounts hot hbehind _
      (readOpening_ready hot hbehind (Calls.unspecified_sound _) hopening)
      (readOpening_accounts hot hbehind (Tape.size_pos source tokens) hopening) hshallow
    split at h
    · cases h
    · next hnot =>
      obtain rfl := Except.error.inj h
      exact haccounts.report hscan hblank hnot

end Grammar

theorem Query.parse_report {source : String} {errors : List ParseError}
    (h : Query.parse source = .error errors) : Query.Report source errors := by
  unfold Query.parse at h
  split at h
  · next hblank =>
    obtain rfl := Except.error.inj h
    exact .empty ((Text.trimmed_eq_empty_iff source).2 hblank)
  · next hblank =>
    rw [← Text.trimmed_eq_empty_iff] at hblank
    cases hscan : Scan.tokens source with
    | ok tokens =>
        cases hpipeline : Grammar.pipeline source tokens with
        | ok pipeline =>
            simp [Scan.tokensOrErrors, hscan, hpipeline, Except.mapError, bind, Except.bind, pure,
              Except.pure] at h
        | error found =>
            simp only [Scan.tokensOrErrors, hscan, hpipeline, Except.mapError, bind, Except.bind,
              Except.error.injEq] at h
            subst h
            exact Grammar.pipeline_report hscan hblank hpipeline
    | error wrong =>
        simp only [Scan.tokensOrErrors, hscan, Except.mapError, bind, Except.bind,
          Except.error.injEq] at h
        subst h
        exact Scan.mistakes_report hscan hblank

-- Two stages inside brackets and three outside are faulty.
theorem Query.parse_report_bracketed : ∃ errors : List ParseError,
    Query.parse "search [ search b= | where (d ] e\n | eval x= | stats count(a) BY | fields ]" =
      .error errors ∧
    errors.map (fun error => error.position?.map fun here => (here.line, here.column)) =
      [some (1, 20), some (1, 31), some (2, 10), some (2, 32), some (2, 41)] ∧
    Query.Report "search [ search b= | where (d ] e\n | eval x= | stats count(a) BY | fields ]"
      errors := by
  have hplaces : (match Query.parse
      "search [ search b= | where (d ] e\n | eval x= | stats count(a) BY | fields ]" with
    | .error errors => errors.map fun error => error.position?.map fun here => (here.line, here.column)
    | .ok _ => []) = [some (1, 20), some (1, 31), some (2, 10), some (2, 32), some (2, 41)] := by
    decide +kernel
  cases hparse : Query.parse
      "search [ search b= | where (d ] e\n | eval x= | stats count(a) BY | fields ]" with
  | ok query =>
      rw [hparse] at hplaces
      cases hplaces
  | error errors =>
      rw [hparse] at hplaces
      exact ⟨errors, rfl, hplaces, Query.parse_report hparse⟩

end SearchPipeline
