import SearchPipeline.Proofs.Grammar.Counter
import SearchPipeline.Proofs.Grammar.Course

namespace SearchPipeline.Grammar

open Rule

variable {tape : Tape} {calls : Calls} {room : Nat} {source : String}

-- Nothing is remembered at places where reading may go on after a position.
structure Trail.Leaves (tape : Tape) (pos : Nat) (trail : Trail) : Prop where
  pipe : tape.kind pos = .pipe → ∀ key ∈ trail.memo, key.1 ≤ pos
  other : tape.kind pos ≠ .finish → tape.kind pos ≠ .pipe →
    ∀ key ∈ trail.memo, key.1 ≤ recover tape (tape.next pos)

-- Reading has come to a position without going too deep.
structure Progress.Ready (tape : Tape) (calls : Calls) (progress : Progress) : Prop where
  shallow : progress.trail.tooDeep = none
  leaves : progress.trail.Leaves tape progress.pos
  opening : ∀ s, progress.opening = some s → calls.IsStage s
  later : ∀ s ∈ progress.later, calls.IsStage s

-- Where nothing is remembered, everything remembered may be recalled.
theorem Trail.Knows.of_before {low : Nat} {trail : Trail} (hshallow : trail.tooDeep = none)
    (hbefore : ∀ key ∈ trail.memo, key.1 < low) : trail.Knows tape calls low where
  shallow := hshallow
  recalls pos least entry hlow hget := by
    have hmem : (pos, least) ∈ trail.memo := by
      rw [Std.TreeMap.mem_iff_isSome_getElem?, hget]
      rfl
    have := hbefore _ hmem
    exact absurd hlow (Nat.not_le.2 this)

section

variable (hot : tape.Orderly) (hbehind : ∀ pos, tape.size ≤ pos → tape.kind pos = .finish)

include hot hbehind

-- Where a stage is done, nothing is remembered that the next one could recall.
theorem Course.leaves {α : Type} {pos stop : Nat} {trail later : Trail} {value : α}
    (h : Course tape pos trail (.done value stop later))
    (hbefore : ∀ key ∈ trail.memo, key.1 < pos) : later.Leaves tape stop := by
  have hle : pos ≤ stop := h.le
  have hlevel : tape.height stop = tape.height pos := h.level rfl
  refine ⟨fun hpipe key hkey => ?_, fun hfinish hpipe key hkey => ?_⟩
  · rcases h.adds.keys key hkey with hold | ⟨-, hshelters⟩
    · have := hbefore key hold
      omega
    · exact hshelters.le_of_pipe hpipe
  have hnext := hot.next_eq hfinish
  have hrecover := Grammar.le_recoverFrom tape (tape.size - tape.next stop) 0 (tape.next stop)
  rcases Nat.lt_or_ge stop key.1 with hlt | hge
  swap
  · exact Nat.le_trans hge (Nat.le_trans (by omega) hrecover)
  rcases h.adds.keys key hkey with hold | ⟨hencloses, hshelters⟩
  · have := hbefore key hold
    omega
  -- further on, only brackets that open behind the position shelter anything
  have hopen : tape.kind stop ≠ .openBracket := by
    intro hopen
    rcases (h.fits rfl hopen).keys key hkey with hold | hwithin
    · have := hbefore key hold
      omega
    · exact absurd hlt (Nat.not_lt.2 hwithin)
  have hstep := (hencloses stop hle hlt).2
  rw [Tape.height_succ, hlevel] at hstep
  have hweight : bracketWeight (tape.kind stop) ≤ 0 := by
    cases hkind : tape.kind stop <;> first | exact absurd hkind hopen | decide
  have hsame : tape.height (stop + 1) = tape.height stop := by
    rw [Tape.height_succ]
    omega
  rw [hnext]
  refine Tape.Shelters.le_recover hot (fun at' hat hbound => ?_) hbehind
  rw [hsame]
  exact hshelters at' (Nat.le_of_succ_le hat) hbound

-- Where a stage is stuck, recovery passes over everything remembered.
theorem Course.le_recover {α : Type} {pos stop : Nat} {trail later : Trail}
    (h : Course tape pos trail (.stuck stop later : Reply α))
    (hbefore : ∀ key ∈ trail.memo, key.1 < pos) : ∀ key ∈ later.memo, key.1 ≤ recover tape stop := by
  intro key hkey
  have hle : pos ≤ stop := h.le
  rcases h.adds.keys key hkey with hold | ⟨-, hshelters⟩
  · have := hbefore key hold
    have hrecover := Grammar.le_recoverFrom tape (tape.size - stop) 0 stop
    exact Nat.le_trans (by omega) hrecover
  · exact hshelters.le_recover hot hbehind

theorem Trail.leaves_recover {pos : Nat} {trail : Trail}
    (h : ∀ key ∈ trail.memo, key.1 ≤ recover tape pos) :
    trail.fresh.Leaves tape (recover tape pos) where
  pipe _ := h
  other hfinish hpipe := by
    rcases recover_kind hot hbehind pos with hkind | hkind
    · exact absurd hkind hfinish
    · exact absurd hkind hpipe

end

-- What is found too deep in one stage is not forgotten in the next.
theorem readLater?_deep {keep : Bool} {progress later : Progress}
    (h : readLater? (tier keep room) source tape progress = some later)
    (hdeep : progress.trail.tooDeep ≠ none) : later.trail.tooDeep ≠ none := by
  have hstage := (Composed.stage .unspecified (tape.next progress.pos)).staysDeep
    (tier_staysDeep tape keep room) progress.trail.fresh hdeep
  have hfresh : progress.trail.fresh.tooDeep ≠ none := hdeep
  unfold readLater? at h
  simp only at h
  split at h
  · cases h
  · split at h
    · next hreply =>
      rw [hreply] at hstage
      cases h
      exact hstage ▸ hfresh
    · next hreply =>
      rw [hreply] at hstage
      cases h
      exact hstage ▸ hfresh
  · cases h
    simpa [Progress.fail, Trail.fresh, Trail.note_tooDeep] using hdeep

theorem readStages_deep {keep : Bool} (fuel : Nat) {progress : Progress}
    (hdeep : progress.trail.tooDeep ≠ none) :
    (readStages (tier keep room) source tape fuel progress).trail.tooDeep ≠ none := by
  induction fuel generalizing progress with
  | zero => exact hdeep
  | succ fuel ih =>
      unfold readStages
      split
      · next later hread => exact ih (readLater?_deep hread hdeep)
      · exact hdeep

section

variable (hot : tape.Orderly) (hbehind : ∀ pos, tape.size ≤ pos → tape.kind pos = .finish)
  (hsound : calls.Sound tape)

include hot hbehind hsound

variable (room) in
-- A rule for a stage that begins where nothing is remembered.
theorem stage_ready {start : Nat} (trail : Trail) {rule : Level → Rule Stage}
    (hrule : Composed tape calls true true start rule fun s _ => calls.IsStage s)
    (hcourse : trail.Knows tape calls start →
      Ends tape start (rule (tier true room)) trail (Course tape start trail))
    (hshallow : trail.tooDeep = none) (hbefore : ∀ key ∈ trail.memo, key.1 < start) :
    Ends tape start (rule (tier true room)) trail fun reply => match reply with
      | .done s stop later => calls.IsStage s ∧ later.Leaves tape stop
      | .stuck stop later => later.fresh.Leaves tape (recover tape stop) := by
  intro hend
  have hknows : trail.Knows tape calls start := .of_before hshallow hbefore
  have hends := hcourse hknows hend
  obtain ⟨outcome, notes, -, hmeets, hfollows⟩ := (hrule.tracks (tier_steady hot hbehind room)
    (tier_tracks hot hbehind hsound start room)).follows (Nat.le_refl start) hknows hend
  cases outcome with
  | done s stop =>
      rw [hfollows.mirrors.eq_done] at hends ⊢
      exact ⟨hmeets, hends.leaves hot hbehind hbefore⟩
  | stuck stop =>
      obtain ⟨stop', hreply, -⟩ := hfollows.mirrors.eq_stuck
      rw [hreply] at hends ⊢
      exact Trail.leaves_recover hot hbehind (hends.le_recover hot hbehind hbefore)

variable (room) in
theorem opening_ready : Ends tape 0 (opening (tier true room)) {} fun reply => match reply with
    | .done s stop later => calls.IsStage s ∧ later.Leaves tape stop
    | .stuck stop later => later.fresh.Leaves tape (recover tape stop) :=
  stage_ready room hot hbehind hsound {} (Composed.opening calls 0) (opening_ends hot
    (tier_steady hot hbehind room) (tier_tracks hot hbehind hsound 0 room)
    (fun _ _ hlow hknows hopen => tier_inside hot hbehind hsound room hlow hknows hopen)
    (Nat.le_refl 0)) rfl (by simp)

theorem readOpening_ready
    (hshallow : (readOpening (tier true room) source tape).trail.tooDeep = none) :
    (readOpening (tier true room) source tape).Ready tape calls := by
  have hends := opening_ready room hot hbehind hsound
  unfold readOpening at hshallow ⊢
  unfold Ends at hends
  split at hshallow
  · next s pos trail hreply =>
    rw [hreply] at hends
    obtain ⟨hstage, hleaves⟩ := hends hshallow
    refine ⟨hshallow, hleaves, ?_, by simp⟩
    rintro _ ⟨⟩
    exact hstage
  · next pos trail hreply =>
    rw [hreply] at hends
    exact ⟨hshallow, hends hshallow, by simp [Progress.fail], by simp [Progress.fail]⟩

theorem readLater?_ready {progress later : Progress} (hready : progress.Ready tape calls)
    (hread : readLater? (tier true room) source tape progress = some later)
    (hshallow : later.trail.tooDeep = none) : later.Ready tape calls := by
  obtain ⟨hdeep, hleaves, hopening, hlater⟩ := hready
  unfold readLater? at hread
  simp only at hread
  split at hread
  · cases hread
  · next hpipe =>
    have hnext : tape.next progress.pos = progress.pos + 1 := hot.next_eq (by simp [hpipe])
    have hbefore : ∀ key ∈ progress.trail.fresh.memo, key.1 < progress.pos + 1 :=
      fun key hkey => Nat.lt_succ_of_le (hleaves.pipe hpipe key hkey)
    have hends := stage_ready room hot hbehind hsound progress.trail.fresh
      (Composed.stage calls (progress.pos + 1))
      (stage_ends hot (tier_steady hot hbehind room) (tier_tracks hot hbehind hsound _ room)
        (fun _ _ hlow hknows hopen => tier_inside hot hbehind hsound room hlow hknows hopen)
        (Nat.le_refl _)) hdeep hbefore
    unfold Ends at hends
    rw [hnext] at hread
    split at hread
    · next s pos trail hreply =>
      cases hread
      rw [hreply] at hends
      obtain ⟨hstage, hleaves'⟩ := hends hshallow
      refine ⟨hshallow, hleaves', hopening, fun other hmem => ?_⟩
      rcases List.mem_cons.1 hmem with rfl | hmem
      · exact hstage
      · exact hlater other hmem
    · next pos trail hreply =>
      cases hread
      rw [hreply] at hends
      exact ⟨hshallow, hends hshallow, hopening, hlater⟩
  · next hfinish hpipe =>
    cases hread
    refine ⟨hshallow, Trail.leaves_recover hot hbehind fun key hkey => ?_, hopening, hlater⟩
    rw [Trail.note_memo, Trail.note_memo] at hkey
    exact hleaves.other hfinish hpipe key hkey

theorem readStages_ready (fuel : Nat) {progress : Progress} (hready : progress.Ready tape calls)
    (hshallow : (readStages (tier true room) source tape fuel progress).trail.tooDeep = none) :
    (readStages (tier true room) source tape fuel progress).Ready tape calls := by
  induction fuel generalizing progress with
  | zero => exact hready
  | succ fuel ih =>
      unfold readStages at hshallow ⊢
      split
      · next later hread =>
        rw [hread] at hshallow
        refine ih (readLater?_ready hot hbehind hsound hready hread ?_) hshallow
        by_contra hdeep
        exact readStages_deep fuel hdeep hshallow
      · exact hready

variable (room) in
-- A rule for a stage gives the same with and without memory, unless it goes too deep without.
theorem stage_same {start : Nat} (trail : Trail) (memo : Memo) {rule : Level → Rule Stage}
    (hrule : Composed tape calls true true start rule fun s _ => calls.IsStage s)
    (hshallow : trail.tooDeep = none) (hbefore : ∀ key ∈ trail.memo, key.1 < start) :
    Ends tape start (rule (tier false room)) { trail with memo } fun reply =>
      ∃ (outcome : Outcome Stage) (later : Trail),
        rule (tier true room) tape start trail = outcome.reply later ∧
        reply = outcome.reply { later with memo } ∧ later.tooDeep = none := by
  intro hend
  have hsteady := tier_steady hot hbehind room
  rcases hrule.tracks hsteady (tier_tracks hot hbehind hsound start room) (Nat.le_refl start) trail
    (.of_before hshallow hbefore) with ⟨-, hsinks⟩ | ⟨outcome, notes, hsettles, -, hfollows⟩
  · exact absurd hend (hsinks _ hshallow)
  rcases (hrule.steady hsteady).plays_or_sinks hsettles with hplays | hsinks
  swap
  · exact absurd hend (hsinks _ hshallow)
  refine ⟨outcome, (rule (tier true room) tape start trail).trail, ?_, ?_, hfollows.knows.shallow⟩
  · cases outcome with
    | done s stop => exact hfollows.mirrors.eq_done
    | stuck stop =>
        obtain ⟨stop', hreply, hsame⟩ := hfollows.mirrors.eq_stuck
        rw [hsame rfl] at hreply
        exact hreply
  · have hreply := hplays { trail with memo } hshallow
    rw [Trail.follow_with_memo] at hreply
    rw [hreply, hfollows.follows]

-- What is remembered plays no part in what has been read.
def Progress.withMemo (progress : Progress) (memo : Memo) : Progress :=
  { progress with trail := { progress.trail with memo } }

theorem readOpening_same
    (hshallow : (readOpening (tier false room) source tape).trail.tooDeep = none) :
    (readOpening (tier true room) source tape).trail.tooDeep = none ∧
      ∃ memo, readOpening (tier false room) source tape =
        (readOpening (tier true room) source tape).withMemo memo := by
  have hsame := stage_same room hot hbehind hsound {} ∅ (Composed.opening calls 0) rfl
    (by simp)
  unfold readOpening at hshallow ⊢
  unfold Ends at hsame
  have hend : (opening (tier false room) tape 0 {}).trail.tooDeep = none := by
    split at hshallow
    · next hreply =>
      rw [hreply]
      exact hshallow
    · next hreply =>
      rw [hreply]
      exact hshallow
  obtain ⟨outcome, later, hkept, hafresh, hlater⟩ := hsame hend
  rw [hkept]
  change opening (tier false room) tape 0 {} = _ at hafresh
  rw [hafresh]
  cases outcome with
  | done s stop => exact ⟨hlater, ∅, rfl⟩
  | stuck stop => exact ⟨hlater, ∅, rfl⟩

theorem readLater?_same {progress later : Progress} (hready : progress.Ready tape calls)
    (memo : Memo) (hread : readLater? (tier false room) source tape (progress.withMemo memo) =
      some later) (hshallow : later.trail.tooDeep = none) :
    ∃ later', readLater? (tier true room) source tape progress = some later' ∧
      later'.trail.tooDeep = none ∧ ∃ memo, later = later'.withMemo memo := by
  obtain ⟨hdeep, hleaves, -, -⟩ := hready
  have hpos : (progress.withMemo memo).pos = progress.pos := rfl
  unfold readLater? at hread ⊢
  simp only [hpos] at hread ⊢
  split at hread
  · cases hread
  · next hpipe =>
    rw [hot.next_eq (by simp [hpipe])] at hread ⊢
    have hbefore : ∀ key ∈ progress.trail.fresh.memo, key.1 < progress.pos + 1 :=
      fun key hkey => Nat.lt_succ_of_le (hleaves.pipe hpipe key hkey)
    have hsame := stage_same room hot hbehind hsound progress.trail.fresh memo
      (Composed.stage calls (progress.pos + 1)) hdeep hbefore
    unfold Ends at hsame
    change (stage (tier false room) tape (progress.pos + 1)
      (progress.withMemo memo).trail.fresh).trail.tooDeep = none → ∃ (outcome : Outcome Stage)
        (rest : Trail), _ ∧ stage (tier false room) tape (progress.pos + 1)
          (progress.withMemo memo).trail.fresh = _ ∧ _ at hsame
    split at hread
    · next s pos trail hreply =>
      cases hread
      rw [hreply] at hsame
      obtain ⟨outcome, rest, hkept, hafresh, hrest⟩ := hsame hshallow
      rw [hkept]
      cases outcome <;> cases hafresh
      exact ⟨_, rfl, hrest, memo, rfl⟩
    · next pos trail hreply =>
      cases hread
      rw [hreply] at hsame
      obtain ⟨outcome, rest, hkept, hafresh, hrest⟩ := hsame hshallow
      rw [hkept]
      cases outcome <;> cases hafresh
      exact ⟨_, rfl, hrest, memo, rfl⟩
  · cases hread
    refine ⟨_, rfl, ?_, memo, ?_⟩
    · simpa [Progress.fail, Trail.fresh, Trail.note_tooDeep] using hdeep
    · have hpipe := Trail.note_with_memo progress.trail.fresh memo progress.pos (.kind .pipe)
      have hfinish := Trail.note_with_memo (progress.trail.fresh.note progress.pos (.kind .pipe)) memo
        progress.pos (.kind .finish)
      change (progress.withMemo memo).fail source tape progress.pos _
        (({ progress.trail.fresh with memo } : Trail).note _ _ |>.note _ _) = _
      rw [hpipe, hfinish]
      rfl

omit hot hbehind hsound in
-- Reading ends at the same place with and without memory.
theorem readLater?_none {keep : Bool} {progress : Progress} (memo : Memo)
    (h : readLater? (tier keep room) source tape (progress.withMemo memo) = none) (keep' : Bool) :
    readLater? (tier keep' room) source tape progress = none := by
  have hpos : (progress.withMemo memo).pos = progress.pos := rfl
  unfold readLater? at h ⊢
  simp only [hpos] at h ⊢
  split at h
  · rfl
  · split at h <;> cases h
  · cases h

theorem readStages_same (fuel : Nat) {progress : Progress} (hready : progress.Ready tape calls)
    (memo : Memo) (hshallow : (readStages (tier false room) source tape fuel
      (progress.withMemo memo)).trail.tooDeep = none) :
    ∃ memo', readStages (tier false room) source tape fuel (progress.withMemo memo) =
      (readStages (tier true room) source tape fuel progress).withMemo memo' := by
  induction fuel generalizing progress memo with
  | zero => exact ⟨memo, rfl⟩
  | succ fuel ih =>
      unfold readStages at hshallow ⊢
      cases hread : readLater? (tier false room) source tape (progress.withMemo memo) with
      | none =>
          rw [readLater?_none memo hread true]
          exact ⟨memo, rfl⟩
      | some later =>
          rw [hread] at hshallow
          have hlater : later.trail.tooDeep = none := by
            by_contra hdeep
            exact readStages_deep fuel hdeep hshallow
          obtain ⟨later', hread', hlater', memo', rfl⟩ :=
            readLater?_same hot hbehind hsound hready memo hread hlater
          rw [hread']
          exact ih (readLater?_ready hot hbehind hsound hready hread' hlater') memo' hshallow

end

theorem Calls.unspecified_sound (tape : Tape) : Calls.unspecified.Sound tape :=
  ⟨fun _ _ _ _ _ _ => trivial, fun _ _ _ _ _ _ => trivial, fun _ _ _ _ => trivial⟩

theorem finish_withMemo (source : String) (tape : Tape) (progress : Progress) (memo : Memo) :
    finish source tape (progress.withMemo memo) = finish source tape progress := rfl

theorem finish_of_deep (source : String) (tape : Tape) {progress : Progress}
    (hdeep : progress.trail.tooDeep ≠ none) :
    ∃ position, finish source tape progress = .error [.grammatical position .tooDeep] := by
  obtain ⟨pos, hpos⟩ := Option.ne_none_iff_exists'.1 hdeep
  unfold finish
  rw [hpos]
  exact ⟨_, rfl⟩

variable (room) in
theorem finish_same (hot : tape.Orderly) (hbehind : ∀ pos, tape.size ≤ pos → tape.kind pos = .finish)
    (fuel : Nat) (h : ∀ position, finish source tape (readStages (tier false room) source tape fuel
      (readOpening (tier false room) source tape)) ≠ .error [.grammatical position .tooDeep]) :
    finish source tape (readStages (tier true room) source tape fuel
        (readOpening (tier true room) source tape)) =
      finish source tape (readStages (tier false room) source tape fuel
        (readOpening (tier false room) source tape)) := by
  have hsound := Calls.unspecified_sound tape
  have hshallow : (readStages (tier false room) source tape fuel
      (readOpening (tier false room) source tape)).trail.tooDeep = none := by
    by_contra hdeep
    obtain ⟨position, hposition⟩ := finish_of_deep source tape hdeep
    exact h position hposition
  have hopening : (readOpening (tier false room) source tape).trail.tooDeep = none := by
    by_contra hdeep
    exact readStages_deep _ hdeep hshallow
  obtain ⟨hfirst, memo, hsame⟩ := readOpening_same hot hbehind hsound hopening
  rw [hsame] at hshallow ⊢
  obtain ⟨memo', hall⟩ := readStages_same hot hbehind hsound fuel
    (readOpening_ready hot hbehind hsound hfirst) memo hshallow
  rw [hall, finish_withMemo]

variable (room) in
-- The stages of a pipeline that is read are read to their parts.
theorem finish_isStage (hot : tape.Orderly)
    (hbehind : ∀ pos, tape.size ≤ pos → tape.kind pos = .finish) (hsound : calls.Sound tape)
    {fuel : Nat} {pipeline : Pipeline} (h : finish source tape (readStages (tier true room) source
      tape fuel (readOpening (tier true room) source tape)) = .ok pipeline) :
    ∀ s ∈ pipeline.opening :: pipeline.later, calls.IsStage s := by
  have hshallow : (readStages (tier true room) source tape fuel
      (readOpening (tier true room) source tape)).trail.tooDeep = none := by
    by_contra hdeep
    obtain ⟨position, hposition⟩ := finish_of_deep source tape hdeep
    rw [hposition] at h
    cases h
  have hopening : (readOpening (tier true room) source tape).trail.tooDeep = none := by
    by_contra hdeep
    exact readStages_deep _ hdeep hshallow
  have hready := readStages_ready hot hbehind hsound fuel
    (readOpening_ready hot hbehind hsound hopening) hshallow
  unfold finish at h
  rw [hshallow] at h
  dsimp only at h
  split at h
  · next first hfirst hnone =>
    cases h
    intro s hs
    rcases List.mem_cons.1 hs with rfl | hlater
    · exact hready.opening s hfirst
    · exact hready.later s (List.mem_reverse.1 hlater)
  · cases h

theorem pipelineWith_isStage {source : String} {tokens : List Token} {pipeline : Pipeline}
    (hsound : calls.Sound (Tape.ofTokens source tokens))
    (h : pipelineWith true source tokens = .ok pipeline) :
    ∀ s ∈ pipeline.opening :: pipeline.later, calls.IsStage s := by
  rw [pipelineWith_eq_tier] at h
  exact finish_isStage maxNesting (Tape.ofTokens_orderly source tokens)
    (fun _ => Tape.kind_of_size_le source tokens) hsound h

-- What is read and everything that is complained about are the same with and without memory, if the
-- nesting is not too deep without.
theorem pipelineWith_same {source : String} {tokens : List Token}
    (h : ∀ position, pipelineWith false source tokens ≠ .error [.grammatical position .tooDeep]) :
    pipelineWith true source tokens = pipelineWith false source tokens := by
  rw [pipelineWith_eq_tier true, pipelineWith_eq_tier false]
  simp only [pipelineWith_eq_tier false] at h
  exact finish_same maxNesting (Tape.ofTokens_orderly source tokens)
    (fun _ => Tape.kind_of_size_le source tokens) (Tape.ofTokens source tokens).size h

theorem pipeline_of_afresh {source : String} {tokens : List Token} {found : Pipeline}
    (h : pipelineWith false source tokens = .ok found) : pipeline source tokens = .ok found := by
  rw [← h]
  refine pipelineWith_same fun position herror => ?_
  rw [h] at herror
  cases herror

end SearchPipeline.Grammar

namespace SearchPipeline

-- Reads a query without remembering any expression.
def Query.parseAfresh (source : String) : Except (List ParseError) Query :=
  if Text.isBlankText source then .error [.emptyQuery]
  else do
    let tokens ← Scan.tokensOrErrors source
    let pipeline ← Grammar.pipelineWith false source tokens
    return ⟨source, tokens, pipeline⟩

theorem Query.parseAfresh_of_error {source : String} {tokens : List Token}
    {errors : List ParseError} (hblank : Text.isBlankText source = false)
    (hlex : Scan.tokensOrErrors source = .ok tokens)
    (herror : Grammar.pipelineWith false source tokens = .error errors) :
    Query.parseAfresh source = .error errors := by
  simp only [Query.parseAfresh, hblank, hlex, herror, bind, Except.bind, Bool.false_eq_true,
    if_false]

-- Remembering expressions changes neither the tree of a query nor any complaint about it.
theorem Query.parse_eq_parseAfresh (source : String)
    (h : ∀ position, Query.parseAfresh source ≠ .error [.grammatical position .tooDeep]) :
    Query.parse source = Query.parseAfresh source := by
  cases hblank : Text.isBlankText source with
  | true => simp only [Query.parse, Query.parseAfresh, hblank, if_true]
  | false =>
      cases hlex : Scan.tokensOrErrors source with
      | error errors =>
          simp only [Query.parse, Query.parseAfresh, hlex, bind, Except.bind]
      | ok tokens =>
          have hsame : Grammar.pipelineWith true source tokens =
              Grammar.pipelineWith false source tokens :=
            Grammar.pipelineWith_same fun position herror =>
              h position (Query.parseAfresh_of_error hblank hlex herror)
          simp only [Query.parse, Query.parseAfresh, Grammar.pipeline, hlex, bind, Except.bind, hsame]

-- Two of the stages are faulty, and the rules try the operands of all of them more than once.
theorem Query.parse_eq_parseAfresh_faulty :
    (∀ position, Query.parseAfresh "search a=(b+c) OR d | eval x= | stats count(a) BY | where (d" ≠
      .error [.grammatical position .tooDeep]) ∧
    Query.parse "search a=(b+c) OR d | eval x= | stats count(a) BY | where (d" =
      Query.parseAfresh "search a=(b+c) OR d | eval x= | stats count(a) BY | where (d" := by
  have hshallow : ∀ position,
      Query.parseAfresh "search a=(b+c) OR d | eval x= | stats count(a) BY | where (d" ≠
        .error [.grammatical position .tooDeep] := by
    intro position herror
    have hcount : (match Query.parseAfresh
        "search a=(b+c) OR d | eval x= | stats count(a) BY | where (d" with
      | .error errors => errors.length
      | .ok _ => 0) = 3 := by decide +kernel
    rw [herror] at hcount
    cases hcount
  exact ⟨hshallow, Query.parse_eq_parseAfresh _ hshallow⟩

end SearchPipeline
