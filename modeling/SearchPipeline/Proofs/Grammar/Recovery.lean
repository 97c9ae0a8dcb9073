import Mathlib.Data.List.Chain
import SearchPipeline.Proofs.Grammar.Stages

namespace SearchPipeline.Grammar

open Rule

variable {tape : Tape} {room : Nat} {source : String}

-- An error that complains about what stands at a position of the tape.
def ComplainsAt (source : String) (tape : Tape) (error : ParseError) (pos : Nat) : Prop :=
  pos < tape.size ∧
    ∃ complaint, error = .grammatical (Position.locate source (tape.mark pos).start) complaint

-- A `|` stands at or behind the first position and before the second.
def Tape.Divided (tape : Tape) (first second : Nat) : Prop :=
  ∃ bar, first ≤ bar ∧ bar < second ∧ tape.kind bar = .pipe

-- Nothing is complained about behind the end of the tape.
theorem Tape.Encloses.lt_size (hot : tape.Orderly) {pos stop : Nat} (h : tape.Encloses pos stop)
    (hpos : pos < tape.size) (hle : pos ≤ stop) : stop < tape.size := by
  rcases Nat.eq_or_lt_of_le hle with rfl | hlt
  · exact hpos
  · have hends := hot.ends (stop - 1) (h (stop - 1) (by omega) (by omega)).1
    omega

-- Where a rule that is stuck is complained about.
def Trail.fault (trail : Trail) (stop : Nat) : Nat := trail.furthest.getD stop

theorem complaint_complainsAt {trail : Trail} {stop : Nat} (h : trail.fault stop < tape.size) :
    ComplainsAt source tape (complaint source tape stop trail) (trail.fault stop) :=
  ⟨h, _, rfl⟩

section

variable (hot : tape.Orderly) (hbehind : ∀ pos, tape.size ≤ pos → tape.kind pos = .finish)

include hot hbehind

variable (room) in
theorem opening_course {trail : Trail} (hknows : trail.Knows tape .unspecified 0) :
    Ends tape 0 (opening (tier true room)) trail (Course tape 0 trail) :=
  opening_ends hot (tier_steady hot hbehind room)
    (tier_tracks hot hbehind (Calls.unspecified_sound tape) 0 room)
    (fun _ _ hlow hknows hopen =>
      tier_inside hot hbehind (Calls.unspecified_sound tape) room hlow hknows hopen)
    (Nat.le_refl 0) hknows

variable (room) in
theorem stage_course {pos : Nat} {trail : Trail} (hknows : trail.Knows tape .unspecified pos) :
    Ends tape pos (stage (tier true room)) trail (Course tape pos trail) :=
  stage_ends hot (tier_steady hot hbehind room)
    (tier_tracks hot hbehind (Calls.unspecified_sound tape) pos room)
    (fun _ _ hlow hknows hopen =>
      tier_inside hot hbehind (Calls.unspecified_sound tape) room hlow hknows hopen)
    (Nat.le_refl pos) hknows

variable (room) in
-- A rule for a stage that is stuck is complained about at a place behind its start, and recovery
-- does not stop before that place.
theorem stage_fault {start stop : Nat} (trail : Trail) {later : Trail} {rule : Level → Rule Stage}
    (hrule : Composed tape .unspecified true true start rule fun s _ => Calls.unspecified.IsStage s)
    (hcourse : trail.Knows tape .unspecified start →
      Ends tape start (rule (tier true room)) trail (Course tape start trail))
    (hshallow : trail.tooDeep = none) (hbefore : ∀ key ∈ trail.memo, key.1 < start)
    (hfresh : trail.furthest = none) (hstart : start < tape.size)
    (hreply : rule (tier true room) tape start trail = .stuck stop later)
    (hlater : later.tooDeep = none) :
    start ≤ later.fault stop ∧ later.fault stop < tape.size ∧
      later.fault stop ≤ recover tape stop := by
  have hend : (rule (tier true room) tape start trail).trail.tooDeep = none := by
    rw [hreply]
    exact hlater
  have hknows : trail.Knows tape .unspecified start := .of_before hshallow hbefore
  have hends := hcourse hknows hend
  obtain ⟨outcome, notes, -, -, hfollows⟩ := (hrule.tracks (tier_steady hot hbehind room)
    (tier_tracks hot hbehind (Calls.unspecified_sound tape) start room)).follows (Nat.le_refl start)
    hknows hend
  have hnotes := hfollows.behind
  rw [hreply] at hends hnotes
  have hle : start ≤ stop := hends.le
  unfold Trail.fault
  cases hfault : later.furthest with
  | none =>
      refine ⟨hle, hends.encloses.lt_size hot hstart hle, ?_⟩
      exact le_recoverFrom tape _ _ _
  | some fault =>
      have hlow : start ≤ fault := (hnotes.furthest fault hfault).resolve_left (by simp [hfresh])
      obtain ⟨hencloses, hshelters⟩ :=
        (hends.adds.furthest fault hfault).resolve_left (by simp [hfresh])
      exact ⟨hlow, hencloses.lt_size hot hstart hlow, hshelters.le_recover hot hbehind⟩

-- The opening stage is complained about at a place that recovery does not stop before.
theorem opening_fault {stop : Nat} {later : Trail} (hsize : 0 < tape.size)
    (hreply : opening (tier true room) tape 0 {} = .stuck stop later)
    (hlater : later.tooDeep = none) :
    later.fault stop < tape.size ∧ later.fault stop ≤ recover tape stop :=
  (stage_fault room hot hbehind {} (Composed.opening .unspecified 0) (opening_course room hot hbehind)
    rfl (by simp) rfl hsize hreply hlater).2

-- So is each later stage, at a place behind its `|`.
theorem later_fault {pos stop : Nat} {trail later : Trail} (hpipe : tape.kind pos = .pipe)
    (hshallow : trail.tooDeep = none) (hbefore : ∀ key ∈ trail.memo, key.1 ≤ pos)
    (hreply : stage (tier true room) tape (pos + 1) trail.fresh = .stuck stop later)
    (hlater : later.tooDeep = none) :
    pos < later.fault stop ∧ later.fault stop < tape.size ∧
      later.fault stop ≤ recover tape stop :=
  stage_fault room hot hbehind trail.fresh (Composed.stage .unspecified (pos + 1))
    (stage_course room hot hbehind) hshallow (fun key hkey => Nat.lt_succ_of_le (hbefore key hkey))
    rfl (hot.ends pos (by simp [hpipe])) hreply hlater

end

-- The places that two errors complain about are divided by a `|`. The later error comes first.
def Separate (source : String) (tape : Tape) (later earlier : ParseError) : Prop :=
  ∃ first second, ComplainsAt source tape earlier first ∧ ComplainsAt source tape later second ∧
    tape.Divided first second

-- Unless the opening stage has been read there is an error. Each error complains about a place, and a
-- `|` divides the places of one error and the next. The latest error comes first; reading goes on
-- behind its place, at or behind a `|`, or at the end.
structure Progress.Accounts (source : String) (tape : Tape) (progress : Progress) : Prop where
  opened : progress.opening = none → progress.errors ≠ []
  each : ∀ error ∈ progress.errors, ∃ pos, ComplainsAt source tape error pos
  chain : progress.errors.IsChain (Separate source tape)
  latest : ∀ error ∈ progress.errors.head?, ∃ fault, ComplainsAt source tape error fault ∧
    fault ≤ progress.pos ∧ (tape.kind progress.pos = .finish ∨ tape.kind progress.pos = .pipe ∨
      tape.Divided fault progress.pos)

namespace Progress.Accounts

variable {progress : Progress}

-- A further error, about a place that a `|` divides from the places before.
theorem fail (heach : ∀ error ∈ progress.errors, ∃ pos, ComplainsAt source tape error pos)
    (hchain : progress.errors.IsChain (Separate source tape)) (hot : tape.Orderly)
    (hbehind : ∀ pos, tape.size ≤ pos → tape.kind pos = .finish) {stop resume : Nat} {trail : Trail}
    (hfault : trail.fault stop < tape.size) (hrecover : trail.fault stop ≤ recover tape resume)
    (hdivided : ∀ error ∈ progress.errors.head?, ∃ fault, ComplainsAt source tape error fault ∧
      tape.Divided fault (trail.fault stop)) :
    (progress.fail source tape stop resume trail).Accounts source tape where
  opened _ := List.cons_ne_nil _ _
  each error hmem := by
    rcases List.mem_cons.1 hmem with rfl | hmem
    · exact ⟨_, complaint_complainsAt hfault⟩
    · exact heach error hmem
  chain := by
    refine hchain.cons fun earlier hearlier => ?_
    obtain ⟨fault, hcomplains, hbar⟩ := hdivided earlier hearlier
    exact ⟨fault, _, hcomplains, complaint_complainsAt hfault, hbar⟩
  latest error hmem := by
    obtain rfl : _ = error := Option.some.inj hmem
    refine ⟨_, complaint_complainsAt hfault, hrecover, ?_⟩
    rcases recover_kind hot hbehind resume with hkind | hkind
    · exact .inl hkind
    · exact .inr (.inl hkind)

-- Reading goes on behind a `|` without an error.
theorem pass {later : Progress} (h : progress.Accounts source tape)
    (hpipe : tape.kind progress.pos = .pipe) (hlt : progress.pos < later.pos)
    (hopening : later.opening = progress.opening) (herrors : later.errors = progress.errors) :
    later.Accounts source tape where
  opened := hopening ▸ herrors ▸ h.opened
  each := herrors ▸ h.each
  chain := herrors ▸ h.chain
  latest error hmem := by
    rw [herrors] at hmem
    obtain ⟨fault, hcomplains, hle, -⟩ := h.latest error hmem
    exact ⟨fault, hcomplains, by omega, .inr (.inr ⟨progress.pos, hle, hlt, hpipe⟩)⟩

end Progress.Accounts

section

variable (hot : tape.Orderly) (hbehind : ∀ pos, tape.size ≤ pos → tape.kind pos = .finish)

include hot hbehind

theorem readOpening_accounts (hsize : 0 < tape.size)
    (hshallow : (readOpening (tier true room) source tape).trail.tooDeep = none) :
    (readOpening (tier true room) source tape).Accounts source tape := by
  unfold readOpening at hshallow ⊢
  split
  · constructor <;> simp
  · next stop trail hreply =>
    rw [hreply] at hshallow
    obtain ⟨hfault, hrecover⟩ := opening_fault hot hbehind hsize hreply hshallow
    exact .fail (by simp) .nil hot hbehind hfault hrecover (by simp)

theorem readLater?_accounts {progress later : Progress}
    (hready : progress.Ready tape .unspecified) (haccounts : progress.Accounts source tape)
    (hread : readLater? (tier true room) source tape progress = some later)
    (hshallow : later.trail.tooDeep = none) : later.Accounts source tape := by
  obtain ⟨hdeep, hleaves, -, -⟩ := hready
  unfold readLater? at hread
  simp only at hread
  split at hread
  · cases hread
  · next hpipe =>
    rw [hot.next_eq (by simp [hpipe])] at hread
    have hknows : progress.trail.fresh.Knows tape .unspecified (progress.pos + 1) :=
      .of_before hdeep fun key hkey => Nat.lt_succ_of_le (hleaves.pipe hpipe key hkey)
    split at hread
    · next s pos trail hreply =>
      cases hread
      have hends := stage_course room hot hbehind hknows
      unfold Ends at hends
      rw [hreply] at hends
      exact haccounts.pass hpipe (hends hshallow).le rfl rfl
    · next stop trail hreply =>
      cases hread
      obtain ⟨hlt, hfault, hrecover⟩ :=
        later_fault hot hbehind hpipe hdeep (hleaves.pipe hpipe) hreply hshallow
      refine .fail haccounts.each haccounts.chain hot hbehind hfault hrecover fun error hmem => ?_
      obtain ⟨fault, hcomplains, hle, -⟩ := haccounts.latest error hmem
      exact ⟨fault, hcomplains, progress.pos, hle, hlt, hpipe⟩
  · next hfinish hpipe =>
    cases hread
    -- what stands in place of a `|` is complained about, and recovery begins behind it
    have hhere : ((progress.trail.fresh.note progress.pos (.kind .pipe)).note progress.pos
        (.kind .finish)).fault progress.pos = progress.pos := by
      simp [Trail.fault, Trail.note, Trail.fresh]
    have hlt := hot.ends progress.pos hfinish
    have hresume := le_recoverFrom tape (tape.size - tape.next progress.pos) 0 (tape.next progress.pos)
    have hnext := tape.le_next progress.pos
    refine .fail haccounts.each haccounts.chain hot hbehind (by rw [hhere]; omega) ?_
      fun error hmem => ?_
    · rw [hhere]
      exact Nat.le_trans hnext hresume
    · rw [hhere]
      obtain ⟨fault, hcomplains, -, hkind | hkind | hdivided⟩ := haccounts.latest error hmem
      · exact absurd hkind hfinish
      · exact absurd hkind hpipe
      · exact ⟨fault, hcomplains, hdivided⟩

theorem readStages_accounts (fuel : Nat) {progress : Progress}
    (hready : progress.Ready tape .unspecified) (haccounts : progress.Accounts source tape)
    (hshallow : (readStages (tier true room) source tape fuel progress).trail.tooDeep = none) :
    (readStages (tier true room) source tape fuel progress).Accounts source tape := by
  induction fuel generalizing progress with
  | zero => exact haccounts
  | succ fuel ih =>
      unfold readStages at hshallow ⊢
      split
      · next later hread =>
        rw [hread] at hshallow
        have hlater : later.trail.tooDeep = none := by
          by_contra hdeep
          exact readStages_deep fuel hdeep hshallow
        exact ih (readLater?_ready hot hbehind (Calls.unspecified_sound tape) hready hread hlater)
          (readLater?_accounts hot hbehind hready haccounts hread hlater) hshallow
      · exact haccounts

end

end SearchPipeline.Grammar
