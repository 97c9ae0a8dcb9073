import SearchPipeline.Proofs.Grammar.Carried
import SearchPipeline.Proofs.Grammar.Counter

namespace SearchPipeline.Grammar

open Rule

section

variable {carry : Carry} {tape other : Tape}

-- What a level reads on one tape, the other level reads on the other.
structure Level.Agrees (carry : Carry) (tape other : Tape) (level level' : Level) : Prop where
  operation : ∀ least pos, Rule.Agrees carry tape other pos
    (Becomes (Operation.relabel carry.relabel)) (level.operation least) (level'.operation least)
  expression : SameExprs carry tape other level.expression level'.expression
  subquery : ∀ pos, Rule.Agrees carry tape other pos (Becomes (Subquery.relabel carry.relabel))
    level.subquery level'.subquery

abbrev relabelBody (r : Relabel) (body : List Operation × Option Subquery) :
    List Operation × Option Subquery :=
  (body.1.map (Operation.relabel r), body.2.map (Subquery.relabel r))

variable (hc : tape.Carries carry other)

include hc

theorem command_agrees (pos : Nat) :
    Agrees carry tape other pos (Becomes (Command.relabel carry.relabel)) command command := by
  refine Agrees.peek_bind hc rfl (.ite (fun hcommand => ?_) fun _ => .miss _)
  have hkind : ∀ kind ∈ [Kind.word, .finish], tape.kind (pos + carry.here) ≠ kind := by
    have hnone : ∀ kind ∈ [Kind.word, .finish], kind.isCommand = false := by decide
    rintro kind hmem rfl
    rw [hnone _ hmem] at hcommand
    cases hcommand
  have hfinish := hkind .finish (by decide)
  intro hpos
  refine Agrees.advance_bind hc hfinish (.pure ?_) hpos
  simp only [Becomes, Command.relabel, hc.text pos (hkind .word (by decide)) hfinish,
    hc.mark_index hpos, carry.place_single]

section

variable {level level' : Level} (hlevel : level.Agrees carry tape other level')
  (hensures : level.Ensures tape)

include hlevel hensures

theorem operand?_agrees (found : List Operation) (pos : Nat) :
    Agrees carry tape other pos
      (Steps (Becomes (List.map (Operation.relabel carry.relabel))) found
        (found.map (Operation.relabel carry.relabel)) pos) (operand? level found)
      (operand? level' (found.map (Operation.relabel carry.relabel))) := by
  refine Agrees.peek_bind hc rfl (.ite (fun _ => ?_) fun _ => .pure (.enough rfl))
  refine .bind ((hlevel.operation 0 pos).ensuring (hensures.operation 0 _)) ?_
  rintro operation _ mid ⟨rfl, hoperation⟩
  refine .bind (Agrees.eat hc .comma (by decide) nofun).forward ?_
  rintro _ _ stop ⟨-, hle⟩
  have hlt := hoperation.lt
  exact .pure (.more rfl (by omega))

omit hensures in
theorem subquery?_agrees (pos : Nat) :
    Agrees carry tape other pos (Becomes (Option.map (Subquery.relabel carry.relabel)))
      (subquery? level) (subquery? level') := by
  refine Agrees.peek_bind hc rfl (.ite (fun _ => ?_) fun _ => .pure rfl)
  refine .bind (hlevel.subquery pos) ?_
  rintro inner _ stop rfl
  exact .pure rfl

theorem body_agrees (pos : Nat) :
    Agrees carry tape other pos (Becomes (relabelBody carry.relabel)) (body level)
      (body level') := by
  refine .bind (.repeatStep hc (I := Becomes (List.map (Operation.relabel carry.relabel))) ?_ rfl) ?_
  · rintro found _ at' rfl
    exact operand?_agrees hc hlevel hensures found at'
  · rintro operations _ mid rfl
    refine .bind (subquery?_agrees hc hlevel mid) ?_
    rintro subquery _ stop rfl
    rw [List.isEmpty_map, Option.isNone_map]
    refine .ite (fun _ => .miss _) fun _ => .pure ?_
    simp only [Becomes, relabelBody, List.map_reverse]

theorem openingWithCommand_agrees (pos : Nat) :
    Agrees carry tape other pos
      (Becomes (Prod.map (Option.map (Command.relabel carry.relabel)) (relabelBody carry.relabel)))
      (openingWithCommand level) (openingWithCommand level') := by
  refine Agrees.peek_bind hc rfl (.ite (fun _ => ?_) fun _ => .refuse)
  refine .bind (command_agrees hc pos) ?_
  rintro command _ mid rfl
  refine .bind (body_agrees hc hlevel hensures mid) ?_
  rintro found _ stop rfl
  exact .pure rfl

-- A stage may begin with a `|`, so it begins where neither tape ends.
theorem opening_agrees (pos : Nat)
    (hsame : other.kind (pos + carry.there) = tape.kind (pos + carry.here)) :
    Agrees carry tape other pos (Becomes (Stage.relabel carry.relabel)) (opening level)
      (opening level') := by
  refine .position_bind fun hpos => .bind (.eat hc .pipe (by decide) fun _ => hsame) ?_
  rintro _ piped mid ⟨rfl, -⟩
  refine .bind (.firstOf (.cons (openingWithCommand_agrees hc hlevel hensures mid)
    (.cons ?_ .nil))) ?_
  · refine .bind (body_agrees hc hlevel hensures mid) ?_
    rintro found _ stop rfl
    exact .pure rfl
  · rintro ⟨command, operations, subquery⟩ _ stop rfl
    refine .spanFrom_bind hc hpos (.pure ?_)
    exact (Stage.relabel_mk carry.relabel piped command operations subquery _).symm

theorem stage_agrees (pos : Nat) :
    Agrees carry tape other pos (Becomes (Stage.relabel carry.relabel)) (stage level)
      (stage level') := by
  refine .position_bind fun hpos => .bind (command_agrees hc pos) ?_
  rintro command _ mid rfl
  refine .bind (body_agrees hc hlevel hensures mid) ?_
  rintro ⟨operations, subquery⟩ _ stop rfl
  refine .spanFrom_bind hc hpos (.pure ?_)
  exact (Stage.relabel_mk carry.relabel false (some command) operations subquery _).symm

-- As many brackets are open behind a stage as before it.
theorem laterStage_agrees (found : List Stage) (pos : Nat)
    (hsame : other.kind (pos + carry.there) = tape.kind (pos + carry.here)) :
    Agrees carry tape other pos
      (Steps (fun found found' stop => found' = found.map (Stage.relabel carry.relabel) ∧
          tape.height (stop + carry.here) = tape.height (pos + carry.here))
        found (found.map (Stage.relabel carry.relabel)) pos)
      (laterStage level found) (laterStage level' (found.map (Stage.relabel carry.relabel))) := by
  refine .bind ((Agrees.eat hc .pipe (by decide) fun _ => hsame).ensuring (.eat .pipe)) ?_
  rintro (_ | _) _ mid ⟨⟨rfl, rfl⟩, htaken⟩
  · exact .pure (.enough ⟨rfl, rfl⟩)
  · refine .bind ((stage_agrees hc hlevel hensures _).ensuring
      (stage_ensures hc.orderly hensures _)) ?_
    rintro next _ stop ⟨rfl, hstage⟩
    have hlt := hstage.lt
    rw [if_pos rfl] at hlt
    have hpipe : bracketWeight (tape.kind (pos + carry.here)) = 0 := by rw [htaken.1]; rfl
    refine .pure (.more ⟨rfl, hstage.balances.level.trans ?_⟩ (by omega))
    rw [if_pos rfl, Nat.add_right_comm, Tape.height_succ, hpipe, Int.add_zero]

-- Inside brackets neither tape ends, because the brackets would have to be open before them.
theorem bracketed_agrees (pos : Nat) :
    Agrees carry tape other pos (Becomes (Subquery.relabel carry.relabel)) (bracketed level)
      (bracketed level') := by
  refine .position_bind fun hpos => .bind (.expect hc .openBracket (by decide)) ?_
  rintro _ _ _ ⟨hopen, rfl⟩
  have hinside : tape.height (pos + 1 + carry.here) = tape.height (pos + carry.here) + 1 := by
    rw [Nat.add_right_comm, Tape.height_succ, hopen]
    rfl
  have hsame : ∀ at', pos < at' → tape.height (at' + carry.here) =
      tape.height (pos + 1 + carry.here) → at' + carry.here < tape.size →
      other.kind (at' + carry.there) = tape.kind (at' + carry.here) := fun at' hlt hheight hat =>
    hc.same_of_height hat (Nat.le_of_lt hlt) (by omega)
  refine .bind (fun hat => ((opening_agrees hc hlevel hensures (pos + 1)
    (hsame _ (Nat.lt_succ_self pos) rfl hat)).ensuring
      (opening_ensures hc.orderly hensures _)).forward hat) ?_
  rintro first _ mid ⟨⟨rfl, hfirst⟩, hle⟩
  refine .bind (.repeatStep hc (I := fun found found' at' =>
    found' = found.map (Stage.relabel carry.relabel) ∧ pos < at' ∧
      tape.height (at' + carry.here) = tape.height (pos + 1 + carry.here)) ?_
    ⟨rfl, hle, hfirst.balances.level⟩) ?_
  · rintro found _ at' ⟨rfl, hlt, hheight⟩ hat
    refine (laterStage_agrees hc hlevel hensures found at' (hsame at' hlt hheight hat)).forward.mono
      ?_ hat
    rintro _ _ stop ⟨hsteps, hforward⟩
    cases hsteps with
    | more hnext hmore => exact .more ⟨hnext.1, by omega, hnext.2.trans hheight⟩ hmore
    | enough hnext => exact .enough ⟨rfl, by omega, hnext.2.trans hheight⟩
  · rintro later _ last ⟨rfl, -, -⟩
    refine .bind (.expect hc .closeBracket (by decide)) ?_
    intro _ _ stop _
    refine .spanFrom_bind hc hpos (.pure ?_)
    simp only [Becomes, Subquery.relabel, relabelStages_eq, List.map_reverse]

end

theorem tier_agrees (keep : Bool) (room : Nat) :
    (tier keep room).Agrees carry tape other (tier keep room) := by
  have hot := hc.orderly
  induction room with
  | zero =>
      refine ⟨fun least pos => .whileShallow .sink, fun least pos => ?_, fun pos => .whileShallow .sink⟩
      exact .ite (fun _ => .remembered hot (.whileShallow .sink)) fun _ => .whileShallow .sink
  | succ room ih =>
      have hensures := tier_ensures hot keep room
      refine ⟨fun least pos => .whileShallow (connectives_agrees hc ih.expression ih.operation least pos),
        fun least pos => ?_, fun pos => .whileShallow (bracketed_agrees hc ih hensures pos)⟩
      have hoperators := operators_agrees hc ih.expression least pos
      have hderives := operators_ensures hot hensures.expression least (pos + carry.here)
      exact .ite (fun _ => .remembered hot (.whileShallow (.record hoperators hderives)))
        fun _ => .whileShallow hoperators

end

-- How far reading has come on the two tapes, and how what was complained about is related.
structure Progress.Carries (carry : Carry) (tape : Tape) (alike : ParseError → ParseError → Prop)
    (progress other : Progress) : Prop where
  pos : ∃ pos, pos + carry.here < tape.size ∧ progress.pos = pos + carry.here ∧
    other.pos = pos + carry.there
  trail : progress.trail.Carries carry tape other.trail
  opening : other.opening = progress.opening.map (Stage.relabel carry.relabel)
  later : other.later = progress.later.map (Stage.relabel carry.relabel)
  errors : List.Forall₂ alike progress.errors other.errors

section

variable {level : Level} {source : String} {tape : Tape} {progress : Progress}

-- An error once noted stays.
theorem readStages_errors_ne (h : progress.errors ≠ []) (fuel : Nat) :
    (readStages level source tape fuel progress).errors ≠ [] := by
  induction fuel generalizing progress with
  | zero => exact h
  | succ fuel ih =>
      simp only [readStages]
      split
      · next later hread =>
        apply ih
        unfold readLater? at hread
        simp only at hread
        split at hread
        · cases hread
        · split at hread <;> cases hread
          · exact h
          · simp [Progress.fail]
        · cases hread
          simp [Progress.fail]
      · exact h

theorem readStages_of_finish (hfinish : tape.kind progress.pos = .finish) (fuel : Nat) :
    readStages level source tape fuel progress = progress := by
  cases fuel with
  | zero => rfl
  | succ fuel => simp only [readStages, readLater?, hfinish]

end

section

variable {carry : Carry} {tape other : Tape} (hc : tape.Carries carry other)
  {level level' : Level} (hlevel : level.Agrees carry tape other level')
  (hensures : level.Ensures tape) {alike : ParseError → ParseError → Prop}

include hc hlevel hensures

-- One step is none on both tapes, or a stage on both, or a failure on both.
theorem readLater?_agrees {source source' : String} {progress progress' : Progress}
    (h : progress.Carries carry tape alike progress')
    (hsame : other.kind progress'.pos = tape.kind progress.pos) :
    (readLater? level source tape progress = none ∧
      readLater? level' source' other progress' = none) ∨
    (∃ later later', readLater? level source tape progress = some later ∧
      readLater? level' source' other progress' = some later' ∧
      later.Carries carry tape alike later') ∨
    ∃ stop resume trail trail', stop + carry.here < tape.size ∧ resume + carry.here < tape.size ∧
      trail.Carries carry tape trail' ∧
      readLater? level source tape progress = some
        (progress.fail source tape (stop + carry.here) (resume + carry.here) trail) ∧
      readLater? level' source' other progress' = some
        (progress'.fail source' other (stop + carry.there) (resume + carry.there) trail') := by
  obtain ⟨pos, hpos, hhere, hthere⟩ := h.pos
  rw [hhere, hthere] at hsame
  have hahead : tape.kind (pos + carry.here) ≠ .finish → pos + 1 + carry.here < tape.size := by
    intro hkind
    have := hc.orderly.ends _ hkind
    omega
  unfold readLater?
  simp only [hhere, hthere, hsame]
  split
  · exact .inl ⟨rfl, rfl⟩
  · next hpipe =>
    have hfinish : tape.kind (pos + carry.here) ≠ .finish := by simp [hpipe]
    obtain ⟨hnext, hnext'⟩ := hc.next hfinish
    have hstage := stage_agrees hc hlevel hensures (pos + 1) (hahead hfinish) _ _ h.trail.fresh
    rw [hnext, hnext']
    generalize stage level tape (pos + 1 + carry.here) progress.trail.fresh = reply
      at hstage ⊢
    generalize stage level' other (pos + 1 + carry.there) progress'.trail.fresh = reply'
      at hstage ⊢
    right
    cases hstage with
    | @done s s' stop _ _ hvalue _ hstop htrail =>
        cases hvalue
        refine .inl ⟨_, _, rfl, rfl, ⟨stop, hstop, rfl, rfl⟩, htrail, h.opening, ?_, h.errors⟩
        simp only [h.later, List.map_cons]
    | @stuck stop _ _ hstop htrail =>
        exact .inr ⟨stop, stop, _, _, hstop, hstop, htrail, rfl, rfl⟩
  · next hfinish _ =>
    obtain ⟨hnext, hnext'⟩ := hc.next hfinish
    rw [hnext, hnext']
    refine .inr (.inr ⟨pos, pos + 1, _, _, hpos, hahead hfinish, ?_, rfl, rfl⟩)
    exact (h.trail.fresh.note pos _).note pos _

theorem readOpening_agrees (source source' : String) (hhere : carry.here = 0)
    (hthere : carry.there = 0) (hsame : other.kind 0 = tape.kind 0) (hsize : 0 < tape.size) :
    (readOpening level source tape).Carries carry tape alike (readOpening level' source' other) ∨
    ∃ stop trail trail', stop + carry.here < tape.size ∧ trail.Carries carry tape trail' ∧
      readOpening level source tape = Progress.fail { pos := stop + carry.here, trail } source tape
        (stop + carry.here) (stop + carry.here) trail ∧
      readOpening level' source' other = Progress.fail { pos := stop + carry.there, trail := trail' }
        source' other (stop + carry.there) (stop + carry.there) trail' := by
  have hopening := opening_agrees hc hlevel hensures 0 (by rwa [hhere, hthere])
    (by rwa [hhere]) {} {} .empty
  rw [show 0 + carry.here = 0 by omega, show 0 + carry.there = 0 by omega] at hopening
  unfold readOpening
  generalize opening level tape 0 {} = reply at hopening ⊢
  generalize opening level' other 0 {} = reply' at hopening ⊢
  cases hopening with
  | @done s s' stop _ _ hvalue _ hstop htrail =>
      cases hvalue
      exact .inl ⟨⟨stop, hstop, rfl, rfl⟩, htrail, rfl, rfl, .nil⟩
  | @stuck stop _ _ hstop htrail => exact .inr ⟨stop, _, _, hstop, htrail, rfl, rfl⟩

end

-- The tapes are carried over as a whole.
structure Tape.CarriesWhole (carry : Carry) (tape other : Tape) : Prop
    extends Tape.Carries carry tape other where
  here : carry.here = 0
  there : carry.there = 0
  sizes : other.size = tape.size
  kinds : ∀ pos, other.kind pos = tape.kind pos

theorem recoverFrom_lt {tape : Tape} (fuel depth : Nat) {pos : Nat} (hpos : pos < tape.size) :
    recoverFrom tape fuel depth pos < tape.size := by
  induction fuel generalizing depth pos with
  | zero => exact hpos
  | succ fuel ih =>
      have hnext : tape.next pos < tape.size := by
        unfold Tape.next
        split <;> assumption
      unfold recoverFrom
      split
      · exact hpos
      · split
        · exact hpos
        · exact ih _ hnext
      · exact ih _ hnext
      · exact ih _ hnext
      · exact ih _ hnext

namespace Tape.CarriesWhole

variable {carry : Carry} {tape other : Tape} (h : tape.CarriesWhole carry other)

include h

theorem next_eq (pos : Nat) : other.next pos = tape.next pos := by
  rw [Tape.next, Tape.next, h.sizes]

theorem recover_eq (pos : Nat) : recover other pos = recover tape pos := by
  have hfrom : ∀ fuel depth pos, recoverFrom other fuel depth pos = recoverFrom tape fuel depth pos := by
    intro fuel
    induction fuel with
    | zero => intro depth pos; rfl
    | succ fuel ih =>
        intro depth pos
        simp only [recoverFrom, h.kinds, h.next_eq, ih]
  rw [recover, recover, h.sizes, hfrom]

end Tape.CarriesWhole

-- Both texts are read and the results are related, or neither is and the errors are related one by
-- one.
inductive Outcomes {α β : Type} (related : α → β → Prop) (alike : ParseError → ParseError → Prop) :
    Except (List ParseError) α → Except (List ParseError) β → Prop where
  | ok {value : α} {value' : β} : related value value' → Outcomes related alike (.ok value) (.ok value')
  | error {errors errors' : List ParseError} : List.Forall₂ alike errors errors' →
      Outcomes related alike (.error errors) (.error errors')

section Whole

variable {carry : Carry} {tape other : Tape} (hc : tape.CarriesWhole carry other)
  {level level' : Level} (hlevel : level.Agrees carry tape other level')
  (hensures : level.Ensures tape) {alike : ParseError → ParseError → Prop} {source source' : String}
  (halike : ∀ (pos : Nat) (trail trail' : Trail), pos < tape.size →
    trail.Carries carry tape trail' →
    alike (complaint source tape pos trail) (complaint source' other pos trail'))

include hc halike

theorem Progress.Carries.fail {progress progress' : Progress} {stop resume : Nat}
    {trail trail' : Trail} (h : progress.Carries carry tape alike progress')
    (hstop : stop + carry.here < tape.size) (hresume : resume + carry.here < tape.size)
    (htrail : trail.Carries carry tape trail') :
    (progress.fail source tape (stop + carry.here) (resume + carry.here) trail).Carries carry tape
      alike (progress'.fail source' other (stop + carry.there) (resume + carry.there) trail') := by
  have hcomplaint := halike (stop + carry.here) trail trail' hstop htrail
  refine ⟨⟨recover tape (resume + carry.here), ?_⟩, htrail.fresh, h.opening, h.later, ?_⟩
  · have hlt := recoverFrom_lt (tape.size - (resume + carry.here)) 0 hresume
    simp only [Progress.fail, hc.recover_eq, hc.here, hc.there, Nat.add_zero] at hlt ⊢
    exact ⟨hlt, trivial, trivial⟩
  · rw [hc.here] at hcomplaint
    simp only [Progress.fail, hc.here, hc.there]
    exact .cons hcomplaint h.errors

include hlevel hensures

theorem readOpening_whole (hsize : 0 < tape.size) :
    (readOpening level source tape).Carries carry tape alike (readOpening level' source' other) := by
  rcases readOpening_agrees hc.toCarries hlevel hensures source source' hc.here hc.there
    (hc.kinds 0) hsize with hread | ⟨stop, trail, trail', hstop, htrail, hread, hread'⟩
  · exact hread
  · rw [hread, hread']
    exact Progress.Carries.fail hc halike ⟨⟨stop, hstop, rfl, rfl⟩, htrail, rfl, rfl, .nil⟩ hstop
      hstop htrail

theorem readStages_whole (fuel : Nat) {progress progress' : Progress}
    (h : progress.Carries carry tape alike progress') :
    (readStages level source tape fuel progress).Carries carry tape alike
      (readStages level' source' other fuel progress') := by
  induction fuel generalizing progress progress' with
  | zero => exact h
  | succ fuel ih =>
      have hsame : other.kind progress'.pos = tape.kind progress.pos := by
        obtain ⟨pos, -, hhere, hthere⟩ := h.pos
        rw [hhere, hthere, hc.kinds, hc.here, hc.there]
      simp only [readStages]
      rcases readLater?_agrees hc.toCarries hlevel hensures h hsame with
        ⟨hread, hread'⟩ | ⟨later, later', hread, hread', hlater⟩ |
        ⟨stop, resume, trail, trail', hstop, hresume, htrail, hread, hread'⟩
      · rw [hread, hread']
        exact h
      · rw [hread, hread']
        exact ih hlater
      · rw [hread, hread']
        exact ih (Progress.Carries.fail hc halike h hstop hresume htrail)

end Whole

-- A pipeline carried over to another tape.
def Carry.pipeline (carry : Carry) (pipeline : Pipeline) : Pipeline :=
  ⟨pipeline.opening.relabel carry.relabel, pipeline.later.map (·.relabel carry.relabel),
    ⟨carry.index pipeline.span.start, carry.index pipeline.span.stop⟩⟩

-- Two lists of tokens that carry over form the same pipeline, relabelled, or complain about the same
-- places.
theorem pipelineWith_whole {carry : Carry} {source source' : String} {tokens tokens' : List Token}
    (keep : Bool)
    (hc : (Tape.ofTokens source tokens).CarriesWhole carry (Tape.ofTokens source' tokens'))
    {alike : ParseError → ParseError → Prop}
    (halike : ∀ (pos : Nat) (trail trail' : Trail), pos < (Tape.ofTokens source tokens).size →
      trail.Carries carry (Tape.ofTokens source tokens) trail' →
      alike (complaint source (Tape.ofTokens source tokens) pos trail)
        (complaint source' (Tape.ofTokens source' tokens') pos trail'))
    (hdeep : ∀ position position',
      alike (.grammatical position .tooDeep) (.grammatical position' .tooDeep)) :
    Outcomes (fun pipeline pipeline' => pipeline' = carry.pipeline pipeline) alike
      (pipelineWith keep source tokens) (pipelineWith keep source' tokens') := by
  have hot := Tape.ofTokens_orderly source tokens
  have hensures := tier_ensures hot keep maxNesting
  have hlevel := tier_agrees hc.toCarries keep maxNesting
  have hopening := readOpening_whole hc hlevel hensures halike (Tape.size_pos source tokens)
  have hread := readStages_whole hc hlevel hensures halike (Tape.ofTokens source tokens).size hopening
  simp only [pipelineWith_eq_tier, hc.sizes]
  generalize readStages (tier keep maxNesting) source (Tape.ofTokens source tokens) _ _ = progress
    at hread ⊢
  generalize readStages (tier keep maxNesting) source' (Tape.ofTokens source' tokens') _ _ =
    progress' at hread ⊢
  obtain ⟨⟨pos, hpos, hhere, hthere⟩, htrail, hfirst, hlater, herrors⟩ := hread
  have hstart := hc.index 0 (by rw [hc.here]; exact Tape.size_pos source tokens)
  rw [hc.here, hc.there] at hstart
  have hstop := hc.index pos hpos
  rw [← hhere, ← hthere] at hstop
  have htooDeep := htrail.tooDeep
  unfold finish
  cases hdeeper : progress.trail.tooDeep with
  | some at' =>
      rw [hdeeper] at htooDeep
      obtain ⟨at'', hdeeper'⟩ := Option.isSome_iff_exists.1 htooDeep
      rw [hdeeper']
      exact .error (.cons (hdeep _ _) .nil)
  | none =>
      rw [hdeeper, Option.isSome_none, Option.isSome_eq_false_iff, Option.isNone_iff_eq_none]
        at htooDeep
      rw [htooDeep, hfirst]
      generalize progress.errors = errors at herrors ⊢
      generalize progress'.errors = errors' at herrors ⊢
      cases progress.opening with
      | none => exact .error (List.rel_reverse herrors)
      | some first =>
          cases herrors with
          | nil =>
              refine .ok ?_
              simp only [Carry.pipeline, hlater, hstart, hstop, List.map_reverse]
          | cons herror herrors => exact .error (List.rel_reverse (.cons herror herrors))

theorem pipelineWith_carries {carry : Carry} {source source' : String}
    {tokens tokens' : List Token} (keep : Bool)
    (hc : (Tape.ofTokens source tokens).CarriesWhole carry (Tape.ofTokens source' tokens'))
    {pipeline : Pipeline} (h : pipelineWith keep source tokens = .ok pipeline) :
    pipelineWith keep source' tokens' = .ok (carry.pipeline pipeline) := by
  have hboth : Outcomes _ (fun _ _ => True) (pipelineWith keep source tokens)
      (pipelineWith keep source' tokens') :=
    pipelineWith_whole keep hc (fun _ _ _ _ _ => trivial) fun _ _ => trivial
  rw [h] at hboth
  generalize pipelineWith keep source' tokens' = outcome at hboth
  cases hboth with
  | ok hsame => rw [hsame]

end SearchPipeline.Grammar
