import SearchPipeline.Proofs.Grammar.Steady

namespace SearchPipeline.Grammar

open Rule

-- A trail that stands at some depth, and a reply with such a trail.
def Trail.at (trail : Trail) (depth : Nat) : Trail := { trail with depth }

def Reply.at {α : Type} (depth : Nat) : Reply α → Reply α
  | .done value pos trail => .done value pos (trail.at depth)
  | .stuck pos trail => .stuck pos (trail.at depth)

theorem Trail.note_at (trail : Trail) (depth pos : Nat) (wanted : Wanted) :
    (trail.at depth).note pos wanted = (trail.note pos wanted).at depth := by
  obtain ⟨memo, old, tooDeep, furthest, noted⟩ := trail
  cases furthest with
  | none => rfl
  | some furthest =>
      dsimp only [Trail.note, Trail.at]
      split_ifs <;> rfl

theorem Reply.shallower_at {α : Type} {reply : Reply α} {depth : Nat}
    (h : reply.trail.depth = depth) : (reply.at (depth + 1)).shallower = reply := by
  subst h
  cases reply <;> rfl

-- A rule that does not look at the depth, and leaves it as it is.
def Blind {α : Type} (tape : Tape) (pos : Nat) (rule : Rule α) : Prop :=
  ∀ (trail : Trail) (depth : Nat), rule tape pos (trail.at depth) = (rule tape pos trail).at depth

structure Level.Blind (tape : Tape) (level : Level) : Prop where
  operation : ∀ least pos, Grammar.Blind tape pos (level.operation least)
  expression : ∀ least pos, Grammar.Blind tape pos (level.expression least)
  subquery : ∀ pos, Grammar.Blind tape pos level.subquery

namespace Blind

variable {α β : Type} {tape : Tape} {pos : Nat} {rule : Rule α}

theorem bind {next : α → Rule β} (h : Blind tape pos rule)
    (hnext : ∀ value mid, Blind tape mid (next value)) : Blind tape pos (rule >>= next) := by
  intro trail depth
  change Rule.bind rule next tape pos _ = (Rule.bind rule next tape pos trail).at depth
  unfold Rule.bind
  rw [h trail depth]
  cases rule tape pos trail with
  | done value mid later => exact hnext value mid later depth
  | stuck stop later => rfl

theorem attempt_bind {next : Option α → Rule β} (h : Blind tape pos rule)
    (hsome : ∀ value mid, Blind tape mid (next (some value))) (hnone : Blind tape pos (next none)) :
    Blind tape pos (attempt rule >>= next) := by
  intro trail depth
  change Rule.bind (attempt rule) next tape pos _ =
    (Rule.bind (attempt rule) next tape pos trail).at depth
  unfold Rule.bind attempt
  rw [h trail depth]
  cases rule tape pos trail with
  | done value mid later => exact hsome value mid later depth
  | stuck stop later => exact hnone later depth

theorem whileShallow (h : Blind tape pos rule) : Blind tape pos (Grammar.whileShallow rule) := by
  intro trail depth
  unfold Grammar.whileShallow
  change (if trail.tooDeep.isSome then _ else _) = _
  split_ifs
  · rfl
  · exact h trail depth

theorem sink : Blind tape pos (Grammar.sink : Rule α) := fun _ _ => rfl

theorem remembered {rule : Rule Expr} {least : Nat} (h : Blind tape pos rule) :
    Blind tape pos (Grammar.remembered least rule) := by
  intro trail depth
  unfold Grammar.remembered
  rw [show (trail.at depth).memo = trail.memo from rfl]
  cases trail.memo[(pos, least)]? with
  | none => exact h trail depth
  | some found => cases found <;> rfl

theorem record {rule : Rule Expr} {least : Nat} (h : Blind tape pos rule) :
    Blind tape pos (Grammar.record least rule) := by
  intro trail depth
  unfold Grammar.record
  rw [h trail depth]
  cases rule tape pos trail <;> rfl

-- Such a rule comes out at the depth where it went in.
theorem trail_depth (h : Blind tape pos rule) (trail : Trail) :
    (rule tape pos trail).trail.depth = trail.depth := by
  have hat := h trail trail.depth
  rw [show trail.at trail.depth = trail from rfl] at hat
  rw [hat]
  cases rule tape pos trail <;> rfl

end Blind

section Tiers

variable {tape : Tape} {calls : Calls} {wide exact : Bool}

theorem Composed.blind {α : Type} {pos : Nat} {rule : Level → Rule α} {P : α → Nat → Prop}
    (h : Composed tape calls wide exact pos rule P) {level : Level} (hlevel : level.Blind tape) :
    Blind tape pos (rule level) := by
  induction h with
  | pure _ | refuse => exact fun _ _ => rfl
  | miss wanted =>
      intro trail depth
      exact congrArg (Reply.stuck _) (trail.note_at depth _ wanted)
  | look_bind _ ih | advance_bind _ _ ih => exact ih
  | bind _ _ ih ihnext => exact ih.bind ihnext
  | attempt_bind _ _ _ ih ihsome ihnone => exact ih.attempt_bind ihsome ihnone
  | expression least => exact hlevel.expression least _
  | operation least => exact hlevel.operation least _
  | subquery _ => exact hlevel.subquery _
  | mono _ _ ih => exact ih

variable (hot : tape.Orderly) (hbehind : ∀ pos, tape.size ≤ pos → tape.kind pos = .finish)

include hot hbehind

theorem tier_blind (keep : Bool) (room : Nat) : (tier keep room).Blind tape := by
  induction room with
  | zero =>
      refine ⟨fun least pos => .whileShallow .sink, fun least pos => ?_,
        fun pos => .whileShallow .sink⟩
      cases keep with
      | true => exact .remembered (.whileShallow .sink)
      | false => exact .whileShallow .sink
  | succ room ih =>
      refine ⟨fun least pos => .whileShallow ?_, fun least pos => ?_, fun pos => .whileShallow ?_⟩
      · exact (Composed.connectives .unspecified true hot hbehind least pos).blind ih
      · have hrule := (Composed.operators .unspecified true hot hbehind least pos).blind ih
        cases keep with
        | true => exact .remembered (.whileShallow hrule.record)
        | false => exact .whileShallow hrule
      · exact (Composed.bracketed .unspecified pos).blind ih

end Tiers

-- Two rules that reply alike at a depth, and come out there.
def Alike {α : Type} (tape : Tape) (depth pos : Nat) (rule other : Rule α) : Prop :=
  ∀ trail : Trail, trail.depth = depth →
    rule tape pos trail = other tape pos trail ∧ (rule tape pos trail).trail.depth = depth

structure Level.Alike (tape : Tape) (depth : Nat) (level other : Level) : Prop where
  operation : ∀ least pos,
    Grammar.Alike tape depth pos (level.operation least) (other.operation least)
  expression : ∀ least pos,
    Grammar.Alike tape depth pos (level.expression least) (other.expression least)
  subquery : ∀ pos, Grammar.Alike tape depth pos level.subquery other.subquery

namespace Alike

variable {α β : Type} {tape : Tape} {depth pos : Nat} {rule other : Rule α}

theorem bind {next next' : α → Rule β} (h : Alike tape depth pos rule other)
    (hnext : ∀ value mid, Alike tape depth mid (next value) (next' value)) :
    Alike tape depth pos (rule >>= next) (other >>= next') := by
  intro trail hdepth
  obtain ⟨hsame, hlater⟩ := h trail hdepth
  change Rule.bind rule next tape pos trail = Rule.bind other next' tape pos trail ∧
    (Rule.bind rule next tape pos trail).trail.depth = depth
  unfold Rule.bind
  rw [← hsame]
  cases hreply : rule tape pos trail with
  | done value mid later =>
      rw [hreply] at hlater
      exact hnext value mid later hlater
  | stuck stop later =>
      rw [hreply] at hlater
      exact ⟨rfl, hlater⟩

theorem attempt_bind {next next' : Option α → Rule β} (h : Alike tape depth pos rule other)
    (hsome : ∀ value mid, Alike tape depth mid (next (some value)) (next' (some value)))
    (hnone : Alike tape depth pos (next none) (next' none)) :
    Alike tape depth pos (attempt rule >>= next) (attempt other >>= next') := by
  intro trail hdepth
  obtain ⟨hsame, hlater⟩ := h trail hdepth
  change Rule.bind (attempt rule) next tape pos trail =
      Rule.bind (attempt other) next' tape pos trail ∧
    (Rule.bind (attempt rule) next tape pos trail).trail.depth = depth
  unfold Rule.bind attempt
  rw [← hsame]
  cases hreply : rule tape pos trail with
  | done value mid later =>
      rw [hreply] at hlater
      exact hsome value mid later hlater
  | stuck stop later =>
      rw [hreply] at hlater
      exact hnone later hlater

theorem remembered {rule other : Rule Expr} {least : Nat} (h : Alike tape depth pos rule other) :
    Alike tape depth pos (Grammar.remembered least rule) (Grammar.remembered least other) := by
  intro trail hdepth
  unfold Grammar.remembered
  cases trail.memo[(pos, least)]? with
  | none => exact h trail hdepth
  | some found => cases found <;> exact ⟨rfl, hdepth⟩

theorem record {rule other : Rule Expr} {least : Nat} (h : Alike tape depth pos rule other) :
    Alike tape depth pos (Grammar.record least rule) (Grammar.record least other) := by
  intro trail hdepth
  obtain ⟨hsame, hlater⟩ := h trail hdepth
  unfold Grammar.record
  rw [← hsame]
  cases hreply : rule tape pos trail <;> exact ⟨rfl, by rwa [hreply] at hlater⟩

-- At the bound it does not matter what would be entered.
theorem enter_sink (hdepth : depth = maxNesting) :
    Alike tape depth pos (enter rule) (whileShallow sink) := by
  rintro trail rfl
  unfold whileShallow
  cases hdeep : trail.tooDeep with
  | none =>
      rw [enter_trips hdeep (Nat.le_of_eq hdepth.symm)]
      exact ⟨rfl, rfl⟩
  | some at' =>
      rw [enter_blocked (by rw [hdeep, Option.isSome_some])]
      exact ⟨rfl, rfl⟩

-- Below it, entering and leaving is what does not show.
theorem enter (hdepth : depth < maxNesting) (h : Alike tape (depth + 1) pos rule other)
    (hblind : Blind tape pos other) : Alike tape depth pos (enter rule) (whileShallow other) := by
  rintro trail rfl
  unfold whileShallow
  cases hdeep : trail.tooDeep with
  | none =>
      obtain ⟨hsame, -⟩ := h trail.deeper rfl
      have hout := hblind.trail_depth trail
      rw [enter_of_lt hdeep hdepth, hsame, show trail.deeper = trail.at (trail.depth + 1) from rfl,
        hblind, Reply.shallower_at hout]
      exact ⟨rfl, hout⟩
  | some at' =>
      rw [enter_blocked (by rw [hdeep, Option.isSome_some])]
      exact ⟨rfl, rfl⟩

end Alike

section Levels

variable {tape : Tape} {calls : Calls} {wide exact : Bool}

theorem Composed.alike {α : Type} {depth pos : Nat} {rule : Level → Rule α} {P : α → Nat → Prop}
    (h : Composed tape calls wide exact pos rule P) {level other : Level}
    (hlevel : level.Alike tape depth other) : Alike tape depth pos (rule level) (rule other) := by
  induction h with
  | pure _ | refuse => exact fun _ hdepth => ⟨rfl, hdepth⟩
  | miss wanted => exact fun trail hdepth => ⟨rfl, (trail.note_depth _ wanted).trans hdepth⟩
  | look_bind _ ih | advance_bind _ _ ih => exact ih
  | bind _ _ ih ihnext => exact ih.bind ihnext
  | attempt_bind _ _ _ ih ihsome ihnone => exact ih.attempt_bind ihsome ihnone
  | expression least => exact hlevel.expression least _
  | operation least => exact hlevel.operation least _
  | subquery _ => exact hlevel.subquery _
  | mono _ _ ih => exact ih

variable (hot : tape.Orderly) (hbehind : ∀ pos, tape.size ≤ pos → tape.kind pos = .finish)

include hot hbehind

-- With levels enough to come to the bound, the rules with the counter read as those without it. How
-- many levels there are beyond that does not show.
theorem level_alike_tier (keep : Bool) {left room depth : Nat} (h : depth + left = maxNesting)
    (hroom : left ≤ room) : (level keep room).Alike tape depth (tier keep left) := by
  induction left generalizing room depth with
  | zero =>
      cases room with
      | zero | succ =>
          refine ⟨fun _ _ => .enter_sink h, fun least pos => ?_, fun _ => .enter_sink h⟩
          cases keep with
          | true => exact .remembered (.enter_sink h)
          | false => exact .enter_sink h
  | succ left ih =>
      obtain ⟨room, rfl⟩ := Nat.exists_eq_add_of_le' (Nat.le_trans (Nat.le_add_left 1 left) hroom)
      have hinner := ih (show depth + 1 + left = maxNesting by omega) (Nat.le_of_succ_le_succ hroom)
      have hblind := tier_blind hot hbehind keep left
      have hdepth : depth < maxNesting := by omega
      refine ⟨fun least pos => ?_, fun least pos => ?_, fun pos => ?_⟩
      · have hconnectives := Composed.connectives .unspecified true hot hbehind least pos
        exact .enter hdepth (hconnectives.alike hinner) (hconnectives.blind hblind)
      · have hoperators := Composed.operators .unspecified true hot hbehind least pos
        have hrule := hoperators.alike hinner
        have hrest := hoperators.blind hblind
        cases keep with
        | true => exact .remembered (.enter hdepth hrule.record hrest.record)
        | false => exact .enter hdepth hrule hrest
      · exact .enter hdepth ((Composed.bracketed .unspecified pos).alike hinner)
          ((Composed.bracketed .unspecified pos).blind hblind)

end Levels

section Reading

variable {tape : Tape} (source : String) {level other : Level} {progress : Progress}

theorem readOpening_alike (h : level.Alike tape 0 other) :
    readOpening level source tape = readOpening other source tape ∧
      (readOpening level source tape).trail.depth = 0 := by
  obtain ⟨hsame, hdepth⟩ := (Composed.opening .unspecified 0).alike h {} rfl
  unfold readOpening
  rw [← hsame]
  cases hreply : opening level tape 0 {} with
  | done found pos trail | stuck pos trail =>
      rw [hreply] at hdepth
      exact ⟨rfl, hdepth⟩

theorem readLater?_alike (h : level.Alike tape 0 other) (hdepth : progress.trail.depth = 0) :
    readLater? level source tape progress = readLater? other source tape progress ∧
      ∀ later, readLater? level source tape progress = some later → later.trail.depth = 0 := by
  obtain ⟨hsame, hafter⟩ := (Composed.stage .unspecified (tape.next progress.pos)).alike h
    progress.trail.fresh hdepth
  unfold readLater?
  simp only
  rw [← hsame]
  split
  · exact ⟨rfl, nofun⟩
  · cases hreply : stage level tape (tape.next progress.pos) progress.trail.fresh with
    | done found pos trail | stuck pos trail =>
        rw [hreply] at hafter
        refine ⟨rfl, ?_⟩
        rintro later ⟨⟩
        exact hafter
  · refine ⟨rfl, ?_⟩
    rintro later ⟨⟩
    simpa [Progress.fail, Trail.fresh, Trail.note_depth] using hdepth

theorem readStages_alike (h : level.Alike tape 0 other) (fuel : Nat)
    (hdepth : progress.trail.depth = 0) :
    readStages level source tape fuel progress = readStages other source tape fuel progress := by
  induction fuel generalizing progress with
  | zero => rfl
  | succ fuel ih =>
      obtain ⟨hsame, hlater⟩ := readLater?_alike source h hdepth
      unfold readStages
      rw [← hsame]
      cases hread : readLater? level source tape progress with
      | none => rfl
      | some later => exact ih (hlater later hread)

end Reading

-- A query is read with the counter as it is read without, with as many levels as the bound or more.
theorem finish_eq_tier (keep : Bool) (source : String) (tokens : List Token) {room : Nat}
    (hroom : maxNesting ≤ room) :
    let tape := Tape.ofTokens source tokens
    let rules := level keep room
    let others := tier keep maxNesting
    finish source tape (readStages rules source tape tape.size (readOpening rules source tape)) =
      finish source tape
        (readStages others source tape tape.size (readOpening others source tape)) := by
  have hrules := level_alike_tier (Tape.ofTokens_orderly source tokens)
    (fun _ => Tape.kind_of_size_le source tokens) keep (Nat.zero_add maxNesting) hroom
  obtain ⟨hopening, hdepth⟩ := readOpening_alike source hrules
  intro tape rules others
  rw [readStages_alike source hrules _ hdepth, hopening]

theorem pipelineWith_eq_tier (keep : Bool) (source : String) (tokens : List Token) :
    pipelineWith keep source tokens =
      let tape := Tape.ofTokens source tokens
      let rules := tier keep maxNesting
      finish source tape (readStages rules source tape tape.size (readOpening rules source tape)) :=
  finish_eq_tier keep source tokens (Nat.le_refl maxNesting)

-- So the bound on the depth is what stops reading, and not the number of levels.
theorem pipelineWith_eq_of_le (keep : Bool) (source : String) (tokens : List Token) {room : Nat}
    (hroom : maxNesting ≤ room) :
    pipelineWith keep source tokens =
      let tape := Tape.ofTokens source tokens
      let rules := level keep room
      finish source tape (readStages rules source tape tape.size (readOpening rules source tape)) :=
  (pipelineWith_eq_tier keep source tokens).trans (finish_eq_tier keep source tokens hroom).symm

end SearchPipeline.Grammar
