import SearchPipeline.Proofs.Grammar.Forward

namespace SearchPipeline.Grammar

open Rule

-- Each mark of the tape is a token of the list, or the end that the list lacks.
theorem Tape.mark_of_tokens (source : String) (tokens : List Token) {pos : Nat}
    (h : pos < (ofTokens source tokens).size) :
    (∃ token, tokens[(ofTokens source tokens).index pos]? = some token ∧
      (ofTokens source tokens).mark pos =
        ⟨token.kind, token.text, (ofTokens source tokens).index pos, token.start⟩) ∨
    pos + 1 = (ofTokens source tokens).size ∧
      (ofTokens source tokens).mark pos = ⟨.finish, "", tokens.length, source.utf8ByteSize⟩ := by
  have hget := mark_of_lt h
  have hown : (ofTokens source tokens).mark pos ∈ marksOf tokens →
      ∃ token, tokens[(ofTokens source tokens).index pos]? = some token ∧
        (ofTokens source tokens).mark pos =
          ⟨token.kind, token.text, (ofTokens source tokens).index pos, token.start⟩ := by
    intro hmem
    obtain ⟨token, htoken, -, hmark⟩ := mem_marksOf.1 hmem
    exact ⟨token, htoken, hmark⟩
  by_cases hlast : (marksOf tokens).getLast?.map (·.kind) = some .finish
  · have hmarks : (ofTokens source tokens).marks = (marksOf tokens).toArray := by
      simp only [ofTokens, if_pos hlast]
    rw [hmarks, List.getElem?_toArray] at hget
    exact .inl (hown (List.mem_of_getElem? hget))
  · have hmarks : (ofTokens source tokens).marks =
        (marksOf tokens ++ [Mark.mk .finish "" tokens.length source.utf8ByteSize]).toArray := by
      simp only [ofTokens, if_neg hlast]
    rw [hmarks, List.getElem?_toArray] at hget
    rw [size, hmarks, List.size_toArray, List.length_append, List.length_singleton] at h ⊢
    rcases Nat.eq_or_lt_of_le (Nat.le_of_lt_succ h) with hend | hlt
    · have hfinal := hget
      rw [hend, List.getElem?_concat_length, ← hend] at hfinal
      exact .inr ⟨by rw [hend], (Option.some.inj hfinal).symm⟩
    · rw [List.getElem?_append_left hlt] at hget
      exact .inl (hown (List.mem_of_getElem? hget))

-- The number of brackets that are open behind a token.
def depthBehind : Kind → Nat → Nat
  | .openBracket, depth => depth + 1
  | .closeBracket, depth => depth - 1
  | _, depth => depth

-- How a position to go on from is found in a number of steps: the next `|` outside the brackets, or
-- the end. Each step looks at a mark and goes to the next.
inductive Recovers (tape : Tape) : (left depth pos stop : Nat) → Prop where
  | ends {left depth pos : Nat} : pos < tape.size → tape.kind pos = .finish →
      Recovers tape (left + 1) depth pos pos
  | stops {left pos : Nat} : pos < tape.size → tape.kind pos = .pipe →
      Recovers tape (left + 1) 0 pos pos
  | passes {left depth pos stop : Nat} : tape.kind pos ≠ .finish →
      (tape.kind pos = .pipe → depth ≠ 0) → pos + 1 < tape.size →
      Recovers tape left (depthBehind (tape.kind pos) depth) (pos + 1) stop →
      Recovers tape (left + 1) depth pos stop

namespace Recovers

variable {tape : Tape} {left depth pos stop : Nat}

theorem stop_eq (h : Recovers tape left depth pos stop) :
    recoverFrom tape left depth pos = stop := by
  induction h with
  | ends _ hkind => simp [recoverFrom, hkind]
  | stops _ hkind => simp [recoverFrom, hkind]
  | @passes left depth pos stop hfinish hpipe hnext _ ih =>
      have hstep : tape.next pos = pos + 1 := if_pos hnext
      rw [recoverFrom, hstep, ← ih]
      generalize tape.kind pos = kind at hfinish hpipe ⊢
      cases kind <;> simp_all [depthBehind]

theorem exists_of_lt (hot : tape.Orderly) (hleft : tape.size ≤ pos + left) (hpos : pos < tape.size) :
    ∃ stop, Recovers tape left depth pos stop ∧ pos ≤ stop ∧ stop < tape.size := by
  induction left generalizing depth pos with
  | zero => omega
  | succ left ih =>
      by_cases hfinish : tape.kind pos = .finish
      · exact ⟨pos, .ends hpos hfinish, Nat.le_refl pos, hpos⟩
      by_cases hstop : tape.kind pos = .pipe ∧ depth = 0
      · obtain ⟨hpipe, rfl⟩ := hstop
        exact ⟨pos, .stops hpos hpipe, Nat.le_refl pos, hpos⟩
      · have hnext := hot.ends pos hfinish
        obtain ⟨stop, hrest, hle, hlt⟩ := ih (by omega) hnext
        exact ⟨stop, .passes hfinish (fun hpipe hdepth => hstop ⟨hpipe, hdepth⟩) hnext hrest,
          by omega, hlt⟩

end Recovers

section Runs

variable (level : Level) (source : String) (tape : Tape)

-- How the opening is read, or skipped after a complaint.
inductive Opens : Progress → Prop where
  | done {found : Stage} {pos : Nat} {trail : Trail} :
      Checked tape (opening level) 0 {} (.done found pos trail) → pos < tape.size →
      Opens { pos, trail, opening := some found }
  | failed {pos resume : Nat} {trail : Trail} :
      Checked tape (opening level) 0 {} (.stuck pos trail) →
      trail.furthest.getD pos < tape.size → Recovers tape (tape.size - pos) 0 pos resume →
      resume < tape.size →
      Opens { pos := resume, trail := trail.fresh, errors := [complaint source tape pos trail] }

-- How a further stage is read or skipped, or something else than a `|` in front of it.
inductive Turn (progress : Progress) : Progress → Prop where
  | done {found : Stage} {pos : Nat} {trail : Trail} : tape.kind progress.pos = .pipe →
      progress.pos + 1 < tape.size →
      Checked tape (stage level) (progress.pos + 1) progress.trail.fresh (.done found pos trail) →
      Turn progress { progress with pos, trail, later := found :: progress.later }
  | failed {pos resume : Nat} {trail : Trail} : tape.kind progress.pos = .pipe →
      progress.pos + 1 < tape.size →
      Checked tape (stage level) (progress.pos + 1) progress.trail.fresh (.stuck pos trail) →
      trail.furthest.getD pos < tape.size → Recovers tape (tape.size - pos) 0 pos resume →
      Turn progress
        { progress with
          pos := resume
          trail := trail.fresh
          errors := complaint source tape pos trail :: progress.errors }
  | skipped {resume : Nat} {trail : Trail} : tape.kind progress.pos ≠ .pipe →
      tape.kind progress.pos ≠ .finish → progress.pos + 1 < tape.size →
      trail = (progress.trail.fresh.note progress.pos (.kind .pipe)).note progress.pos
        (.kind .finish) →
      Recovers tape (tape.size - (progress.pos + 1)) 0 (progress.pos + 1) resume →
      Turn progress
        { progress with
          pos := resume
          trail := trail.fresh
          errors := complaint source tape progress.pos trail :: progress.errors }

-- How everything behind is read, in at most so many turns. Each but the last moves forward, and the
-- last is at the end.
inductive Reads : (left : Nat) → Progress → Progress → Prop where
  | ends {left : Nat} {progress : Progress} : progress.pos < tape.size →
      tape.kind progress.pos = .finish → Reads (left + 1) progress progress
  | more {left : Nat} {progress next last : Progress} : Turn level source tape progress next →
      progress.pos < next.pos → next.pos < tape.size → Reads left next last →
      Reads (left + 1) progress last

variable {level source tape}

theorem Opens.progress_eq {progress : Progress} (h : Opens level source tape progress) :
    readOpening level source tape = progress := by
  cases h with
  | done hrule _ => rw [readOpening, hrule.reply_eq]
  | failed hrule _ hrecover _ =>
      rw [readOpening, hrule.reply_eq, ← hrecover.stop_eq]
      rfl

theorem Turn.progress_eq {progress next : Progress} (h : Turn level source tape progress next) :
    readLater? level source tape progress = some next := by
  cases h with
  | done hpipe hnext hrule =>
      have hstep : tape.next progress.pos = progress.pos + 1 := if_pos hnext
      simp only [readLater?, hpipe, hstep, hrule.reply_eq]
  | failed hpipe hnext hrule _ hrecover =>
      have hstep : tape.next progress.pos = progress.pos + 1 := if_pos hnext
      simp only [readLater?, hpipe, hstep, hrule.reply_eq, ← hrecover.stop_eq]
      rfl
  | skipped hpipe hfinish hnext htrail hrecover =>
      have hstep : tape.next progress.pos = progress.pos + 1 := if_pos hnext
      unfold readLater?
      dsimp only
      split
      · next hkind => exact absurd hkind hfinish
      · next hkind => exact absurd hkind hpipe
      · rw [hstep, htrail, ← hrecover.stop_eq]
        rfl

theorem Reads.progress_eq {left : Nat} {progress last : Progress}
    (h : Reads level source tape left progress last) :
    readStages level source tape left progress = last := by
  induction h with
  | ends _ hfinish => simp [readStages, readLater?, hfinish]
  | more hturn _ _ _ ih =>
      rw [readStages, hturn.progress_eq]
      exact ih

end Runs

-- Where reading is on the tape, with a complaint at hand if the opening could not be read.
structure Progress.Confined (tape : Tape) (progress : Progress) : Prop where
  pos : progress.pos < tape.size
  trail : progress.trail.Confined tape
  errors : progress.opening = none → progress.errors ≠ []

section Runs

variable {tape : Tape} (hot : tape.Orderly) {level : Level} (hlevel : level.Forward tape)
  {progress : Progress} (source : String)

-- A complaint is about a mark of the tape.
theorem Trail.Confined.fault_lt {trail : Trail} {stop : Nat} (h : trail.Confined tape)
    (hstop : stop < tape.size) : trail.furthest.getD stop < tape.size := by
  cases hfurthest : trail.furthest with
  | none => exact hstop
  | some pos => exact h.furthest pos hfurthest

include hot hlevel

theorem exists_opens (hsize : 0 < tape.size) :
    ∃ first, Opens level source tape first ∧ first.Confined tape := by
  obtain ⟨reply, hrule, -⟩ := forward_opening hot hlevel 0 hsize {} (.empty tape)
  have hconfined := hrule.confined hsize (.empty tape)
  cases reply with
  | done found pos trail =>
      obtain ⟨htrail, -, hpos⟩ := hconfined
      exact ⟨_, .done hrule hpos, hpos, htrail, by simp⟩
  | stuck pos trail =>
      obtain ⟨htrail, -, hpos⟩ := hconfined
      have hleft : tape.size ≤ pos + (tape.size - pos) := by omega
      obtain ⟨resume, hrecover, -, hresume⟩ := Recovers.exists_of_lt hot hleft hpos
      exact ⟨_, .failed hrule (htrail.fault_lt hpos) hrecover hresume, hresume, htrail.fresh,
        by simp⟩

theorem exists_turn (h : progress.Confined tape) (hfinish : tape.kind progress.pos ≠ .finish) :
    ∃ next, Turn level source tape progress next ∧ progress.pos < next.pos ∧
      next.Confined tape := by
  have hnext := hot.ends progress.pos hfinish
  by_cases hpipe : tape.kind progress.pos = .pipe
  · obtain ⟨reply, hrule, -⟩ := forward_stage hot hlevel _ hnext _ h.trail.fresh
    have hconfined := hrule.confined hnext h.trail.fresh
    cases reply with
    | done found pos trail =>
        obtain ⟨htrail, hle, hpos⟩ := hconfined
        exact ⟨_, .done hpipe hnext hrule, hle, hpos, htrail, h.errors⟩
    | stuck pos trail =>
        obtain ⟨htrail, hle, hpos⟩ := hconfined
        have hleft : tape.size ≤ pos + (tape.size - pos) := by omega
        obtain ⟨resume, hrecover, hresume, hlt⟩ := Recovers.exists_of_lt hot hleft hpos
        exact ⟨_, .failed hpipe hnext hrule (htrail.fault_lt hpos) hrecover,
          Nat.le_trans hle hresume, hlt, htrail.fresh, by simp⟩
  · have hleft : tape.size ≤ progress.pos + 1 + (tape.size - (progress.pos + 1)) := by omega
    obtain ⟨resume, hrecover, hle, hresume⟩ := Recovers.exists_of_lt hot hleft hnext
    have htrail := (h.trail.fresh.note h.pos (.kind .pipe)).note h.pos (.kind .finish)
    exact ⟨_, .skipped hpipe hfinish hnext rfl hrecover, hle, hresume, htrail.fresh, by simp⟩

theorem exists_reads {left : Nat} (h : progress.Confined tape)
    (hleft : tape.size ≤ progress.pos + left) : ∃ last,
      Reads level source tape left progress last ∧ last.Confined tape ∧
        tape.kind last.pos = .finish := by
  induction left generalizing progress with
  | zero =>
      have hpos := h.pos
      omega
  | succ left ih =>
      by_cases hfinish : tape.kind progress.pos = .finish
      · exact ⟨progress, .ends h.pos hfinish, h, hfinish⟩
      · obtain ⟨next, hturn, hlt, hnext⟩ := exists_turn hot hlevel source h hfinish
        obtain ⟨last, hreads, hlast⟩ := ih hnext (by omega)
        exact ⟨last, .more hturn hlt hnext.pos hreads, hlast⟩

end Runs

-- A call of the rule that is done is so further on and still on the tape.
def Advances {α : Type} (tape : Tape) (rule : Rule α) : Prop :=
  ∀ pos trail value stop later, pos < tape.size → trail.Confined tape →
    rule tape pos trail = .done value stop later → pos < stop ∧ stop < tape.size

theorem Forward.advances {α : Type} {tape : Tape} {rule : Rule α} (h : Forward tape rule) :
    Advances tape rule := by
  intro pos trail value stop later hpos htrail hdone
  obtain ⟨reply, hrule, hgives⟩ := h pos hpos trail htrail
  obtain rfl := hdone.symm.trans hrule.reply_eq
  exact ⟨hgives, (hrule.confined hpos htrail).2.2⟩

-- There is a pipeline, or something is reported.
theorem finish_eq (source : String) {tape : Tape} {progress : Progress}
    (h : progress.opening = none → progress.errors ≠ []) :
    (∃ pipeline, finish source tape progress = .ok pipeline) ∨
      ∃ errors, errors ≠ [] ∧ finish source tape progress = .error errors := by
  unfold finish
  split
  · exact .inr ⟨_, List.cons_ne_nil _ _, rfl⟩
  split
  · exact .inl ⟨_, rfl⟩
  · next errors hnone =>
    refine .inr ⟨_, ?_, rfl⟩
    rw [ne_eq, List.reverse_eq_nil_iff]
    intro hempty
    cases hopening : progress.opening with
    | none => exact h hopening hempty
    | some opening => exact hnone opening hopening hempty

-- Every list of tokens is read in a checked run, which ends at an end on the tape, and what is reported
-- there is on the tape too. A checked run is the run of its rule and does not leave the tape. Calls of a
-- command, a name, a value, an expression, an operation or a subquery are done further on. The marks of
-- the tape are tokens of the list, but for an end that the list lacks. In the end there is a pipeline,
-- or something is reported.
theorem reading_progresses (keep : Bool) (source : String) (tokens : List Token) :
    let tape := Tape.ofTokens source tokens
    let rules := level keep maxNesting
    (∃ first last, Opens rules source tape first ∧ Reads rules source tape tape.size first last ∧
      pipelineWith keep source tokens = finish source tape last ∧
      last.pos < tape.size ∧ tape.kind last.pos = .finish ∧
      ∀ pos, last.trail.tooDeep = some pos → pos < tape.size) ∧
    (∀ (α : Type) (rule : Rule α) pos trail reply, Checked tape rule pos trail reply →
      rule tape pos trail = reply ∧
        (pos < tape.size → trail.Confined tape → reply.Confined tape pos)) ∧
    (∀ pos < tape.size, (∃ token, tokens[tape.index pos]? = some token ∧
        tape.mark pos = ⟨token.kind, token.text, tape.index pos, token.start⟩) ∨
      pos + 1 = tape.size ∧ tape.mark pos = ⟨.finish, "", tokens.length, source.utf8ByteSize⟩) ∧
    (Advances tape command ∧ Advances tape name ∧ Advances tape value ∧ ∀ room,
      (∀ least, Advances tape ((level keep room).expression least)) ∧
      (∀ least, Advances tape ((level keep room).operation least)) ∧
      Advances tape (level keep room).subquery) ∧
    ((∃ pipeline, pipelineWith keep source tokens = .ok pipeline) ∨
      ∃ errors, errors ≠ [] ∧ pipelineWith keep source tokens = .error errors) := by
  intro tape rules
  have hot : tape.Orderly := Tape.ofTokens_orderly source tokens
  have hlevel : rules.Forward tape := level_forward hot keep maxNesting
  obtain ⟨first, hopens, hfirst⟩ := exists_opens hot hlevel source (Tape.size_pos source tokens)
  obtain ⟨last, hreads, hlast, hfinish⟩ := exists_reads hot hlevel source hfirst (Nat.le_add_left _ _)
  have hresult : pipelineWith keep source tokens = finish source tape last := by
    rw [← hreads.progress_eq, ← hopens.progress_eq]
    rfl
  refine ⟨⟨first, last, hopens, hreads, hresult, hlast.pos, hfinish, hlast.trail.tooDeep⟩,
    fun α rule pos trail reply h => ⟨h.reply_eq, h.confined⟩,
    fun pos => Tape.mark_of_tokens source tokens, ?_, ?_⟩
  · refine ⟨(forward_command hot).advances, (forward_name hot).advances, (forward_value hot).advances,
      fun room => ?_⟩
    have hroom := level_forward hot keep room
    exact ⟨fun least => (hroom.expression least).advances,
      fun least => (hroom.operation least).advances, hroom.subquery.advances⟩
  · rw [hresult]
    exact finish_eq source hlast.errors

end SearchPipeline.Grammar
