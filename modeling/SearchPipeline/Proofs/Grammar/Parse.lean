import SearchPipeline.Proofs.Grammar.Counter

namespace SearchPipeline.Grammar

-- The right-hand side of a whole pipeline: opening ('|' stage)*
def rootParts (pipeline : Pipeline) : List Part :=
  .node (.opening pipeline.opening) :: laterParts pipeline.later

namespace Progress

-- What has been read is derived, unless something was wrong.
structure Sound (tape : Tape) (progress : Progress) : Prop where
  keeps : progress.trail.Keeps (derived tape)
  spells : progress.errors = [] → ∃ first, progress.opening = some first ∧
    Spells tape (.node (.opening first) :: laterParts progress.later.reverse) 0 progress.pos

theorem Sound.fail {tape : Tape} {progress : Progress} {source : String} {pos resume : Nat}
    {trail : Trail} (h : trail.Keeps (derived tape)) :
    (progress.fail source tape pos resume trail).Sound tape where
  keeps := h.fresh
  spells hnone := by simp [Progress.fail] at hnone

end Progress

section

variable {tape : Tape} (hot : tape.Orderly) {level : Level} (hlevel : level.Ensures tape)
  {source : String} {progress later : Progress}

include hot hlevel

theorem readOpening_sound (source : String) : (readOpening level source tape).Sound tape := by
  have hopening := opening_ensures hot hlevel 0 {} Trail.keeps_empty
  unfold readOpening
  split
  · next s pos trail hreply =>
    rw [hreply] at hopening
    refine ⟨hopening.1, fun _ => ⟨s, rfl, ?_⟩⟩
    exact Spells.node_iff.2 ⟨pos, hopening.2, .nil⟩
  · next pos trail hreply =>
    rw [hreply] at hopening
    exact .fail hopening

-- One step keeps what was read, and a step without an error takes a token.
theorem readLater?_sound (hsound : progress.Sound tape)
    (h : readLater? level source tape progress = some later) :
    later.Sound tape ∧ (later.errors = [] → progress.errors = [] ∧ progress.pos < later.pos) := by
  unfold readLater? at h
  simp only at h
  split at h
  · cases h
  · next hpipe =>
    have hstage := stage_ensures hot hlevel (tape.next progress.pos) _ hsound.keeps.fresh
    rw [hot.next_eq (by simp [hpipe])] at hstage h
    split at h
    · next s pos trail hreply =>
      rw [hreply] at hstage
      cases h
      have hlt := hstage.2.lt
      refine ⟨⟨hstage.1, ?_⟩, fun hnone => ⟨hnone, by simp only; omega⟩⟩
      intro hnone
      obtain ⟨first, hfirst, hspells⟩ := hsound.spells hnone
      refine ⟨first, hfirst, ?_⟩
      simp only [laterParts, List.reverse_cons, List.flatMap_append, List.flatMap_cons,
        List.flatMap_nil, List.append_nil, ← List.cons_append]
      refine Spells.append_iff.2 ⟨progress.pos, hspells, ?_⟩
      exact .token (List.mem_singleton.2 hpipe) (Spells.node_iff.2 ⟨pos, hstage.2, .nil⟩)
    · next pos trail hreply =>
      rw [hreply] at hstage
      cases h
      exact ⟨.fail hstage, fun hnone => by simp [Progress.fail] at hnone⟩
  · cases h
    refine ⟨.fail ((hsound.keeps.fresh.note _ _).note _ _), fun hnone => ?_⟩
    simp [Progress.fail] at hnone

-- Every step takes a token, so with as many steps as there are tokens the end is reached.
theorem readStages_sound (hsound : progress.Sound tape) (fuel : Nat)
    (hfuel : progress.errors = [] → tape.size ≤ progress.pos + fuel)
    (hbehind : ∀ pos, tape.size ≤ pos → tape.kind pos = .finish) :
    (readStages level source tape fuel progress).Sound tape ∧
      ((readStages level source tape fuel progress).errors = [] →
        tape.kind (readStages level source tape fuel progress).pos = .finish) := by
  induction fuel generalizing progress with
  | zero => exact ⟨hsound, fun hnone => hbehind _ (hfuel hnone)⟩
  | succ fuel ih =>
      simp only [readStages]
      cases hread : readLater? level source tape progress with
      | none =>
          refine ⟨hsound, fun _ => ?_⟩
          unfold readLater? at hread
          simp only at hread
          split at hread
          · assumption
          · split at hread <;> cases hread
          · cases hread
      | some later =>
          obtain ⟨hlater, hnone⟩ := readLater?_sound hot hlevel hsound hread
          refine ih hlater fun hempty => ?_
          have hbefore := hfuel (hnone hempty).1
          have hlt := (hnone hempty).2
          omega

end

-- A pipeline that is returned spells the tokens from the first one to the end.
theorem pipelineWith_spells {keep : Bool} {source : String} {tokens : List Token}
    {pipeline : Pipeline} (h : pipelineWith keep source tokens = .ok pipeline) :
    ∃ stop, Spells (Tape.ofTokens source tokens) (rootParts pipeline) 0 stop ∧
      (Tape.ofTokens source tokens).kind stop = .finish ∧
      pipeline.span = ⟨(Tape.ofTokens source tokens).index 0,
        (Tape.ofTokens source tokens).index stop⟩ := by
  have hot := Tape.ofTokens_orderly source tokens
  have hlevel := tier_ensures hot keep maxNesting
  obtain ⟨hsound, hend⟩ := readStages_sound hot hlevel (readOpening_sound hot hlevel source)
    (Tape.ofTokens source tokens).size (fun _ => by omega)
    (fun pos hpos => Tape.kind_of_size_le source tokens hpos)
  simp only [pipelineWith_eq_tier, finish] at h
  split at h
  · cases h
  split at h
  · next first hfirst hnone =>
    cases h
    obtain ⟨first', hfirst', hspells⟩ := hsound.spells hnone
    cases hfirst.symm.trans hfirst'
    exact ⟨_, hspells, hend hnone, rfl⟩
  · cases h

end SearchPipeline.Grammar
