import SearchPipeline.Proofs.Grammar.CarriedPipeline
import SearchPipeline.Proofs.Grammar.Parse
import SearchPipeline.Proofs.Grammar.Stages

namespace SearchPipeline.Grammar

open Rule

-- Nothing that a trail remembers could be recalled from a position on.
structure Trail.Clear (tape : Tape) (pos : Nat) (trail : Trail) : Prop where
  shallow : trail.tooDeep = none
  before : ∀ key ∈ trail.memo, key.1 < pos
  keeps : trail.Keeps (derived tape)

-- The same marks are carried over, but for some more at the front.
def Carry.ahead (carry : Carry) (count : Nat) : Carry :=
  { carry with here := carry.here + count, there := carry.there + count }

theorem Tape.Carries.ahead {carry : Carry} {tape other : Tape} (h : tape.Carries carry other)
    (count : Nat) : tape.Carries (carry.ahead count) other := by
  have hplace : ∀ pos at' : Nat, pos + (at' + count) = pos + count + at' := by omega
  have hsize := h.size
  refine ⟨h.orderly, h.others_orderly, ?_, ?_, ?_, ?_, ?_, ?_, ?_⟩
  · simp only [Carry.ahead]
    omega
  · intro pos hpos
    simp only [Carry.ahead, hplace] at hpos ⊢
    refine (h.kind (pos + count) hpos).imp_right fun hends => ?_
    refine ⟨by simpa only [hplace] using hends.finish, by simpa only [hplace] using hends.pipe, ?_⟩
    intro before hbefore
    simpa only [hplace] using hends.lowest (before + count) (by omega)
  all_goals simp only [Carry.ahead, hplace]
  · exact fun pos => h.index (pos + count)
  · exact fun pos => h.name (pos + count)
  · exact fun pos => h.text (pos + count)
  · exact fun pos => h.left (pos + count)
  · exact fun pos => h.right (pos + count)

theorem Trail.Clear.carries {carry : Carry} {tape : Tape} {trail trail' : Trail}
    (h : trail.Clear tape carry.here) (hshallow : trail'.tooDeep = none)
    (hbefore : ∀ key ∈ trail'.memo, key.1 < carry.there) :
    trail.fresh.Carries carry tape trail'.fresh := by
  have hnone : ∀ {memo : Memo} {low : Nat} (pos least : Nat), (∀ key ∈ memo, key.1 < low) →
      memo[(pos + low, least)]? = none := by
    intro memo low pos least hlow
    refine Std.TreeMap.getElem?_eq_none fun hmem => ?_
    have := hlow _ hmem
    omega
  refine ⟨fun pos least => ?_, ?_, .none, rfl, h.keeps.fresh⟩
  · simp only [Trail.fresh, hnone pos least h.before, hnone pos least hbefore, Option.map_none]
  · simp only [Trail.fresh, hshallow, h.shallow]

variable {room : Nat} {source source' : String} {tape other : Tape}

-- Stages that are read one behind another, each behind a `|`.
inductive Chain (room : Nat) (tape : Tape) : Nat → List Stage → Nat → Prop where
  | nil {pos : Nat} : Chain room tape pos [] pos
  | cons {pos mid stop : Nat} {s : Stage} {rest : List Stage} {trail later : Trail} :
      tape.kind pos = .pipe → trail.Clear tape (pos + 1) →
      stage (tier true room) tape (pos + 1) trail.fresh = .done s mid later → later.tooDeep = none →
      Chain room tape mid rest stop → Chain room tape pos (s :: rest) stop

-- Each stage of a chain is derived behind the place where the chain begins, and none goes behind the
-- end.
theorem Chain.derives {pos stop : Nat} {stages : List Stage} (h : Chain room tape pos stages stop)
    (hot : tape.Orderly) : pos ≤ stop ∧ (pos < tape.size → stop < tape.size) ∧
      ∀ s ∈ stages, ∃ first last, pos ≤ first ∧ Derives tape (.stage s) first last := by
  induction h with
  | nil => exact ⟨Nat.le_refl _, id, by simp⟩
  | @cons pos mid stop s rest trail later hpipe hclear hread hdeep hrest ih =>
      have hstage := stage_ensures hot (tier_ensures hot true room) (pos + 1) _ hclear.keeps.fresh
      rw [hread] at hstage
      have hlt := hstage.2.lt
      have hsize := hstage.2.lt_size hot
      obtain ⟨hle, hend, hderives⟩ := ih
      refine ⟨by omega, fun _ => hend hsize, fun other hmem => ?_⟩
      rcases List.mem_cons.1 hmem with rfl | hmem
      · exact ⟨pos + 1, mid, Nat.le_succ pos, hstage.2⟩
      · obtain ⟨first, last, hfirst, hother⟩ := hderives other hmem
        exact ⟨first, last, by omega, hother⟩

section Read

variable (hot : tape.Orderly) (hbehind : ∀ pos, tape.size ≤ pos → tape.kind pos = .finish)

include hot

-- One step without an error reads a stage behind a `|`.
theorem readLater?_stage {progress later : Progress}
    (hread : readLater? (tier true room) source tape progress = some later)
    (hnone : later.errors = []) : tape.kind progress.pos = .pipe ∧ ∃ s,
      stage (tier true room) tape (progress.pos + 1) progress.trail.fresh =
        .done s later.pos later.trail ∧
      later.opening = progress.opening ∧ later.later = s :: progress.later := by
  unfold readLater? at hread
  simp only at hread
  split at hread
  · cases hread
  · next hpipe =>
    rw [hot.next_eq (by simp [hpipe])] at hread
    refine ⟨hpipe, ?_⟩
    split at hread
    · next s pos trail hreply =>
      cases hread
      exact ⟨s, hreply, rfl, rfl⟩
    · cases hread
      simp [Progress.fail] at hnone
  · cases hread
    simp [Progress.fail] at hnone

include hbehind in
theorem readStages_chain (fuel : Nat) {progress : Progress}
    (hready : progress.Ready tape .unspecified) (hsound : progress.Sound tape)
    (hnone : (readStages (tier true room) source tape fuel progress).errors = [])
    (hshallow : (readStages (tier true room) source tape fuel progress).trail.tooDeep = none) :
    ∃ stages, Chain room tape progress.pos stages
        (readStages (tier true room) source tape fuel progress).pos ∧
      (readStages (tier true room) source tape fuel progress).opening = progress.opening ∧
      (readStages (tier true room) source tape fuel progress).later =
        stages.reverse ++ progress.later := by
  induction fuel generalizing progress with
  | zero => exact ⟨[], .nil, rfl, rfl⟩
  | succ fuel ih =>
      simp only [readStages] at hnone hshallow ⊢
      cases hread : readLater? (tier true room) source tape progress with
      | none => exact ⟨[], .nil, rfl, rfl⟩
      | some later =>
          rw [hread] at hnone hshallow
          have hlater : later.errors = [] := by
            by_contra hne
            exact readStages_errors_ne hne fuel hnone
          have hdeep : later.trail.tooDeep = none := by
            by_contra hdeep
            exact readStages_deep fuel hdeep hshallow
          obtain ⟨hpipe, s, hstage, hopening, hstages⟩ := readLater?_stage hot hread hlater
          have hready' := readLater?_ready hot hbehind (Calls.unspecified_sound tape) hready hread hdeep
          have hsound' := (readLater?_sound hot (tier_ensures hot true room) hsound hread).1
          obtain ⟨stages, hchain, hfirst, hrest⟩ := ih hready' hsound' hnone hshallow
          have hclear : progress.trail.Clear tape (progress.pos + 1) := by
            refine ⟨hready.shallow, fun key hkey => ?_, hsound.keeps⟩
            exact Nat.lt_succ_of_le (hready.leaves.pipe hpipe key hkey)
          refine ⟨s :: stages, .cons hpipe hclear hstage hdeep hchain, hfirst.trans hopening, ?_⟩
          rw [hrest, hstages, List.reverse_cons, List.append_assoc]
          rfl

end Read

-- Reading has come past some stages.
def Progress.past (progress : Progress) (stages : List Stage) (pos : Nat) (trail : Trail) : Progress :=
  { progress with pos, trail, later := stages.reverse ++ progress.later }

section Carried

variable {carry : Carry} (hc : tape.Carries carry other)

-- What is done on the first tape is done on the second.
theorem Rule.Agrees.done {α α' : Type} {pos stop : Nat} {P : α → α' → Nat → Prop} {rule : Rule α}
    {rule' : Rule α'} {value : α} {trail trail' later : Trail}
    (h : Agrees carry tape other pos P rule rule') (hpos : pos + carry.here < tape.size)
    (htrail : trail.Carries carry tape trail')
    (hread : rule tape (pos + carry.here) trail = .done value stop later)
    (hdeep : later.tooDeep = none) : ∃ value' last later', stop = last + carry.here ∧
      stop < tape.size ∧ pos ≤ last ∧ P value value' last ∧
      rule' other (pos + carry.there) trail' = .done value' (last + carry.there) later' ∧
      later'.tooDeep = none := by
  have hreply := h hpos trail trail' htrail
  rw [hread] at hreply
  generalize hother : rule' other (pos + carry.there) trail' = reply' at hreply
  cases hreply with
  | @done _ value' last _ later' hvalue hle hlast hrest =>
      have hdeep' : later'.tooDeep = none := by simpa [hdeep] using hrest.tooDeep
      exact ⟨value', last, later', rfl, hlast, hle, hvalue, rfl, hdeep'⟩

include hc

theorem opening_carried (hhere : carry.here = 0) (hthere : carry.there = 0) {s : Stage} {mid : Nat}
    {trail : Trail} (hread : opening (tier true room) tape 0 {} = .done s mid trail)
    (hdeep : trail.tooDeep = none) (hderives : Derives tape (.opening s) 0 mid) : ∃ trail',
      opening (tier true room) other 0 {} = .done (s.relabel carry.relabel) mid trail' ∧
        trail'.tooDeep = none := by
  have hkind : tape.kind (0 + carry.here) ≠ .finish := by
    rw [hhere]
    exact Kind.ne_finish (hderives.grammatical (Nat.le_refl 0) hderives.lt)
  have hagrees := opening_agrees hc (tier_agrees hc true room)
    (tier_ensures hc.orderly true room) 0 (hc.kind_eq hkind)
  have hplaces : 0 + carry.here = 0 ∧ 0 + carry.there = 0 := by omega
  have hread₀ : opening (tier true room) tape (0 + carry.here) {} = .done s mid trail := by
    rw [hplaces.1]
    exact hread
  have hdone := hagrees.done (Nat.lt_of_succ_lt (hc.orderly.ends _ hkind)) .empty hread₀ hdeep
  obtain ⟨_, last, trail', hmid, -, -, rfl, hread', hdeep'⟩ := hdone
  obtain rfl : mid = last := by omega
  rw [hplaces.2, hthere, Nat.add_zero] at hread'
  exact ⟨trail', hread', hdeep'⟩

theorem stage_carried {pos stop : Nat} {trail trail' later : Trail} {s : Stage}
    (hpos : pos + carry.here < tape.size) (hclear : trail.Clear tape (pos + carry.here))
    (hshallow : trail'.tooDeep = none) (hbefore : ∀ key ∈ trail'.memo, key.1 < pos + carry.there)
    (hread : stage (tier true room) tape (pos + carry.here) trail.fresh = .done s stop later)
    (hdeep : later.tooDeep = none) : ∃ last later', stop = last + carry.here ∧ stop < tape.size ∧
      pos ≤ last ∧ stage (tier true room) other (pos + carry.there) trail'.fresh =
        .done (s.relabel carry.relabel) (last + carry.there) later' ∧ later'.tooDeep = none := by
  -- only what is remembered from the stage on has to be the same, and that is nothing
  have hahead := hc.ahead pos
  have hhere : 0 + (carry.ahead pos).here = pos + carry.here := by
    simp only [Carry.ahead]
    omega
  have hthere : 0 + (carry.ahead pos).there = pos + carry.there := by
    simp only [Carry.ahead]
    omega
  have htrail : trail.fresh.Carries (carry.ahead pos) tape trail'.fresh := by
    apply Trail.Clear.carries _ hshallow
    · rwa [← hthere, Nat.zero_add] at hbefore
    · rwa [← hhere, Nat.zero_add] at hclear
  have hagrees := stage_agrees hahead (tier_agrees hahead true room)
    (tier_ensures hc.orderly true room) 0
  obtain ⟨_, last, later', hstop, hlt, -, rfl, hread', hdeep'⟩ :=
    hagrees.done (hhere.symm ▸ hpos) htrail (hhere.symm ▸ hread) hdeep
  simp only [Carry.ahead] at hstop
  refine ⟨last + pos, later', by omega, hlt, by omega, ?_, hdeep'⟩
  rw [hthere] at hread'
  rw [hread', Nat.add_assoc, Nat.add_comm pos]
  rfl

-- The stages of a chain are read on the other tape, with as many steps, and reading goes on there.
theorem Chain.reads (source : String) (hbehind : ∀ pos, other.size ≤ pos → other.kind pos = .finish)
    {start stop : Nat} {stages : List Stage} (h : Chain room tape start stages stop) {pos : Nat}
    (hstart : start = pos + carry.here) (hsize : start < tape.size) {progress : Progress}
    (hready : progress.Ready other .unspecified) (hpos : progress.pos = pos + carry.there) :
    ∃ last trail, stop = last + carry.here ∧ stop < tape.size ∧ pos + stages.length ≤ last ∧
      (progress.past (stages.map (·.relabel carry.relabel)) (last + carry.there) trail).Ready other
        .unspecified ∧
      ∀ more, readStages (tier true room) source other (stages.length + more) progress =
        readStages (tier true room) source other more
          (progress.past (stages.map (·.relabel carry.relabel)) (last + carry.there) trail) := by
  induction h generalizing pos progress with
  | nil =>
      have hsame : progress = progress.past [] (pos + carry.there) progress.trail := by
        rw [← hpos]
        rfl
      refine ⟨pos, progress.trail, hstart, hsize, Nat.le_refl _, ?_, fun more => ?_⟩
      · rwa [List.map_nil, ← hsame]
      · rw [List.map_nil, ← hsame, List.length_nil, Nat.zero_add]
  | @cons first mid stop s rest trail later hpipe hclear hread hdeep hrest ih =>
      subst hstart
      have hkind : tape.kind (pos + carry.here) ≠ .finish := by simp [hpipe]
      have hpipe' : other.kind progress.pos = .pipe := by rw [hpos, hc.kind_eq hkind, hpipe]
      rw [Nat.add_right_comm] at hclear hread
      have hahead := hc.orderly.ends _ hkind
      have hbefore : ∀ key ∈ progress.trail.memo, key.1 < pos + 1 + carry.there := by
        intro key hkey
        have := hready.leaves.pipe hpipe' key hkey
        omega
      obtain ⟨last, later', rfl, hlast, hle, hread', hdeep'⟩ := stage_carried hc (by omega) hclear
        hready.shallow hbefore hread hdeep
      have hstep : readLater? (tier true room) source other progress =
          some (progress.past [s.relabel carry.relabel] (last + carry.there) later') := by
        have hnext : other.next progress.pos = pos + 1 + carry.there := by
          rw [hc.others_orderly.next_eq (by simp [hpipe']), hpos]
          omega
        unfold readLater?
        simp only [hpipe', hnext, hread']
        rfl
      have hready' := readLater?_ready hc.others_orderly hbehind (Calls.unspecified_sound other)
        hready hstep hdeep'
      obtain ⟨final, trail', hstop, hfinal, hcount, hend, hsteps⟩ := ih rfl hlast hready' rfl
      refine ⟨final, trail', hstop, hfinal, ?_, ?_, fun more => ?_⟩
      · rw [List.length_cons]
        omega
      · simpa [Progress.past] using hend
      · rw [List.length_cons, Nat.add_right_comm, readStages, hstep]
        simpa [Progress.past] using hsteps more

end Carried

-- A pipeline on a tape: the opening stage, the later ones behind it, and the end.
structure Tape.Reads (tape : Tape) (first : Stage) (later : List Stage) (mid stop : Nat) : Prop where
  opens : ∃ trail, opening (tier true maxNesting) tape 0 {} = .done first mid trail ∧
    trail.tooDeep = none
  derives : Derives tape (.opening first) 0 mid
  chain : Chain maxNesting tape mid later stop
  ends : tape.kind stop = .finish

-- An opening stage without an error.
theorem readOpening_eq (hnone : (readOpening (tier true room) source tape).errors = []) :
    ∃ s mid trail, opening (tier true room) tape 0 {} = .done s mid trail ∧
      readOpening (tier true room) source tape = { pos := mid, trail, opening := some s } := by
  unfold readOpening at hnone ⊢
  split at hnone
  · next s mid trail hreply => exact ⟨s, mid, trail, hreply, rfl⟩
  · simp [Progress.fail] at hnone

theorem finish_reads (hot : tape.Orderly) (hbehind : ∀ pos, tape.size ≤ pos → tape.kind pos = .finish)
    {pipeline : Pipeline} (h : finish source tape (readStages (tier true maxNesting) source tape
      tape.size (readOpening (tier true maxNesting) source tape)) = .ok pipeline) :
    ∃ mid stop, tape.Reads pipeline.opening pipeline.later mid stop := by
  have hlevel := tier_ensures hot true maxNesting
  have hsound := readOpening_sound hot hlevel source
  unfold finish at h
  split at h
  · cases h
  next hshallow =>
  split at h
  · next first hfirst hnone =>
    cases h
    have hopened : (readOpening (tier true maxNesting) source tape).errors = [] := by
      by_contra hne
      exact readStages_errors_ne hne _ hnone
    have hdeep : (readOpening (tier true maxNesting) source tape).trail.tooDeep = none := by
      by_contra hdeep
      exact readStages_deep _ hdeep hshallow
    obtain ⟨stages, hchain, hsame, hlater⟩ := readStages_chain hot hbehind _
      (readOpening_ready hot hbehind (Calls.unspecified_sound tape) hdeep) hsound hnone hshallow
    obtain ⟨s, mid, trail, hreply, hread⟩ := readOpening_eq hopened
    rw [hfirst, hread] at hsame
    cases hsame
    rw [hread] at hchain hdeep
    have hopening := opening_ensures hot hlevel 0 {} Trail.keeps_empty
    rw [hreply] at hopening
    obtain ⟨-, hend⟩ :=
      readStages_sound hot hlevel hsound tape.size (fun _ => Nat.le_add_left _ _) hbehind
    refine ⟨mid, _, ⟨trail, hreply, hdeep⟩, hopening.2, ?_, hend hnone⟩
    have hinorder : (readStages (tier true maxNesting) source tape tape.size
        (readOpening (tier true maxNesting) source tape)).later.reverse = stages := by
      rw [hlater, hread, List.append_nil, List.reverse_reverse]
    rw [hread] at hinorder ⊢
    rwa [hinorder]
  · cases h

theorem pipelineWith_reads {tokens : List Token} {pipeline : Pipeline}
    (h : pipelineWith true source tokens = .ok pipeline) : ∃ mid stop,
      (Tape.ofTokens source tokens).Reads pipeline.opening pipeline.later mid stop := by
  rw [pipelineWith_eq_tier] at h
  exact finish_reads (Tape.ofTokens_orderly source tokens) (fun _ => Tape.kind_of_size_le source tokens)
    h

section Continued

variable {carry carry' : Carry} {first first' : Stage} {later later' : List Stage}
  {mid mid' stop stop' : Nat} {tape' : Tape}

-- A tape that is all of one stage ends where the opening stage of a tape that carries it ends.
theorem Tape.Reads.opens_other (h : tape.Reads first [] mid stop)
    (h' : other.Reads first' later' mid' stop') (hc : tape.Carries carry other)
    (hhere : carry.here = 0) (hthere : carry.there = 0) : stop = mid' := by
  obtain ⟨⟨trail, hread, hdeep⟩, hderives, hchain, -⟩ := h
  obtain ⟨⟨_, hread'', -⟩, -, -, -⟩ := h'
  obtain ⟨_, hread', -⟩ := opening_carried hc hhere hthere hread hdeep hderives
  cases hchain
  exact (Reply.done.inj (hread'.symm.trans hread'')).2.1

-- The stages of one tape, and behind them the later stages of another, are read on a third where they
-- stand one behind another.
theorem finish_continued (source : String) (h : tape.Reads first later mid stop)
    (h' : tape'.Reads first' later' mid' stop') (hc : tape.Carries carry other)
    (hc' : tape'.Carries carry' other) (hhere : carry.here = 0) (hthere : carry.there = 0)
    (hmid : carry'.here = mid') (hstop : carry'.there = stop)
    (hbehind : ∀ pos, other.size ≤ pos → other.kind pos = .finish)
    (hend : ∀ pos, tape'.kind (pos + carry'.here) = .finish →
      other.kind (pos + carry'.there) = .finish) :
    ∃ span, finish source other (readStages (tier true maxNesting) source other other.size
      (readOpening (tier true maxNesting) source other)) = .ok ⟨first.relabel carry.relabel,
        later.map (·.relabel carry.relabel) ++ later'.map (·.relabel carry'.relabel), span⟩ := by
  obtain ⟨⟨trail, hread, hdeep⟩, hderives, hchain, -⟩ := h
  obtain ⟨-, hderives', hchain', hfinish⟩ := h'
  obtain ⟨trail', hread', hdeep'⟩ := opening_carried hc hhere hthere hread hdeep hderives
  have hopening : readOpening (tier true maxNesting) source other =
      { pos := mid, trail := trail', opening := some (first.relabel carry.relabel) } := by
    simp only [readOpening, hread']
  have hready : (readOpening (tier true maxNesting) source other).Ready other .unspecified := by
    refine readOpening_ready hc.others_orderly hbehind (Calls.unspecified_sound other) ?_
    rw [hopening]
    exact hdeep'
  -- the stages of the first tape, and then those of the second
  have hstart : (readOpening (tier true maxNesting) source other).pos = mid + carry.there := by
    rw [hopening, hthere]
    rfl
  obtain ⟨last, between, hlast, -, hcount, hready, hsteps⟩ := hchain.reads hc source hbehind
    (by omega : mid = mid + carry.here) (hderives.lt_size hc.orderly) hready hstart
  have hstart' : last + carry.there = 0 + carry'.there := by omega
  obtain ⟨last', final, hlast', hlt', hcount', hready, hsteps'⟩ := hchain'.reads hc' source hbehind
    (by omega : mid' = 0 + carry'.here) (hderives'.lt_size hc'.orderly) hready hstart'
  have hroom := hc'.size
  obtain ⟨more, hmore⟩ : ∃ more, other.size = later.length + (later'.length + more) :=
    ⟨other.size - later.length - later'.length, by omega⟩
  rw [hlast'] at hfinish
  refine ⟨⟨other.index 0, other.index (last' + carry'.there)⟩, ?_⟩
  rw [hmore, hsteps, hsteps', readStages_of_finish (hend last' hfinish), finish, hready.shallow]
  simp only [Progress.past, hopening, List.append_nil, List.reverse_append, List.reverse_reverse]

end Continued

end SearchPipeline.Grammar
