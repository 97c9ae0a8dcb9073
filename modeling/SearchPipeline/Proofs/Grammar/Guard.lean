import SearchPipeline.Proofs.Grammar.Counter

namespace SearchPipeline.Grammar

open Rule

-- What happens at the guard. A rule is entered or left, with the counter inside, or the guard trips.
inductive Crossing where
  | entered (depth : Nat)
  | left (depth : Nat)
  | tripped (pos depth : Nat)

namespace Crossing

-- The counter does not pass the bound, there is something to lower it by, and the guard trips at the
-- bound only.
def Sound : Crossing → Prop
  | entered depth => depth ≤ maxNesting
  | left depth => 0 < depth ∧ depth ≤ maxNesting
  | tripped _ depth => depth = maxNesting

def trip? : Crossing → Option Nat
  | tripped pos _ => some pos
  | _ => none

end Crossing

-- How a rule runs, and what happens at the guard on the way. The counter is that of the trail.
inductive Counted (tape : Tape) : ∀ {α : Type}, Rule α → (pos : Nat) → Trail → List Crossing →
    Reply α → Prop where
  | pure {α : Type} {pos : Nat} {trail : Trail} (value : α) :
      Counted tape (pure value) pos trail [] (.done value pos trail)
  | look {α : Type} {pos : Nat} {trail : Trail} (view : Tape → Nat → α) :
      Counted tape (look view) pos trail [] (.done (view tape pos) pos trail)
  | advance {pos : Nat} {trail : Trail} :
      Counted tape advance pos trail [] (.done (tape.mark pos) (tape.next pos) trail)
  | miss {α : Type} {pos : Nat} {trail : Trail} (wanted : Wanted) :
      Counted tape (miss wanted : Rule α) pos trail [] (.stuck pos (trail.note pos wanted))
  | refuse {α : Type} {pos : Nat} {trail : Trail} :
      Counted tape (refuse : Rule α) pos trail [] (.stuck pos trail)
  | bind_done {α β : Type} {rule : Rule α} {next : α → Rule β} {pos mid : Nat} {trail later : Trail}
      {log others : List Crossing} {value : α} {reply : Reply β} :
      Counted tape rule pos trail log (.done value mid later) →
      Counted tape (next value) mid later others reply →
      Counted tape (rule >>= next) pos trail (log ++ others) reply
  | bind_stuck {α β : Type} {rule : Rule α} {next : α → Rule β} {pos stop : Nat}
      {trail later : Trail} {log : List Crossing} :
      Counted tape rule pos trail log (.stuck stop later) →
      Counted tape (rule >>= next) pos trail log (.stuck stop later)
  | attempt_done {α : Type} {rule : Rule α} {pos stop : Nat} {trail later : Trail}
      {log : List Crossing} {value : α} :
      Counted tape rule pos trail log (.done value stop later) →
      Counted tape (attempt rule) pos trail log (.done (some value) stop later)
  -- What was tried in vain keeps the trail that it came to, and the counter with it.
  | attempt_stuck {α : Type} {rule : Rule α} {pos stop : Nat} {trail later : Trail}
      {log : List Crossing} :
      Counted tape rule pos trail log (.stuck stop later) →
      Counted tape (attempt rule) pos trail log (.done none pos later)
  | recalled_done {least pos stop : Nat} {rule : Rule Expr} {trail : Trail} {expr : Expr} :
      trail.memo[(pos, least)]? = some (some (expr, stop)) →
      Counted tape (remembered least rule) pos trail [] (.done expr stop trail)
  | recalled_stuck {least pos : Nat} {rule : Rule Expr} {trail : Trail} :
      trail.memo[(pos, least)]? = some none →
      Counted tape (remembered least rule) pos trail [] (.stuck pos trail)
  | unknown {least pos : Nat} {rule : Rule Expr} {trail : Trail} {log : List Crossing}
      {reply : Reply Expr} : trail.memo[(pos, least)]? = none →
      Counted tape rule pos trail log reply → Counted tape (remembered least rule) pos trail log reply
  | recorded_done {least pos stop : Nat} {rule : Rule Expr} {trail later : Trail}
      {log : List Crossing} {expr : Expr} :
      Counted tape rule pos trail log (.done expr stop later) →
      Counted tape (record least rule) pos trail log
        (.done expr stop { later with memo := later.memo.insert (pos, least) (some (expr, stop)) })
  | recorded_stuck {least pos stop : Nat} {rule : Rule Expr} {trail later : Trail}
      {log : List Crossing} :
      Counted tape rule pos trail log (.stuck stop later) →
      Counted tape (record least rule) pos trail log
        (.stuck stop { later with memo := later.memo.insert (pos, least) none })
  | blocked {α : Type} {rule : Rule α} {pos : Nat} {trail : Trail} :
      trail.tooDeep.isSome = true → Counted tape (enter rule) pos trail [] (.stuck pos trail)
  | trips {α : Type} {rule : Rule α} {pos : Nat} {trail : Trail} :
      trail.tooDeep = none → maxNesting ≤ trail.depth →
      Counted tape (enter rule) pos trail [.tripped pos trail.depth]
        (.stuck pos { trail with tooDeep := some pos })
  | enters {α : Type} {rule : Rule α} {pos : Nat} {trail : Trail} {log : List Crossing}
      {reply : Reply α} : trail.tooDeep = none → trail.depth < maxNesting →
      Counted tape rule pos trail.deeper log reply →
      Counted tape (enter rule) pos trail
        (.entered trail.deeper.depth :: (log ++ [.left reply.trail.depth])) reply.shallower

namespace Counted

variable {α β : Type} {tape : Tape} {rule : Rule α} {pos : Nat} {trail : Trail}
  {log : List Crossing} {reply : Reply α}

theorem reply_eq (h : Counted tape rule pos trail log reply) : rule tape pos trail = reply := by
  induction h with
  | pure _ | look _ | advance | miss _ | refuse => rfl
  | bind_done _ _ ih ihnext =>
      change Rule.bind _ _ tape _ _ = _
      rw [Rule.bind, ih]
      exact ihnext
  | bind_stuck _ ih =>
      change Rule.bind _ _ tape _ _ = _
      rw [Rule.bind, ih]
  | attempt_done _ ih | attempt_stuck _ ih => rw [attempt, ih]
  | recalled_done hmemo | recalled_stuck hmemo => rw [remembered, hmemo]
  | unknown hmemo _ ih => rw [remembered, hmemo, ih]
  | recorded_done _ ih | recorded_stuck _ ih => rw [record, ih]
  | blocked hdeep => exact enter_blocked hdeep
  | trips hshallow hbound => exact enter_trips hshallow hbound
  | enters hshallow hroom _ ih => rw [enter_of_lt hshallow hroom, ih]

-- A rule leaves the counter as it was, whether it is done or stuck.
theorem depth_eq (h : Counted tape rule pos trail log reply) :
    reply.trail.depth = trail.depth := by
  induction h with
  | bind_done _ _ ih ihnext => exact ihnext.trans ih
  | bind_stuck _ ih | attempt_done _ ih | attempt_stuck _ ih | unknown _ _ ih
  | recorded_done _ ih | recorded_stuck _ ih => exact ih
  | miss wanted => exact Trail.note_depth _ wanted
  | enters _ _ _ ih =>
      rw [Reply.trail_shallower, Trail.shallower, ih]
      exact Nat.add_sub_cancel _ 1
  | _ => rfl

theorem sound (h : Counted tape rule pos trail log reply) (hdepth : trail.depth ≤ maxNesting) :
    ∀ crossing ∈ log, crossing.Sound := by
  induction h with
  | bind_done hrule _ ih ihnext =>
      exact List.forall_mem_append.2 ⟨ih hdepth, ihnext (hrule.depth_eq ▸ hdepth)⟩
  | bind_stuck _ ih | attempt_done _ ih | attempt_stuck _ ih | unknown _ _ ih
  | recorded_done _ ih | recorded_stuck _ ih => exact ih hdepth
  | trips _ hbound => exact List.forall_mem_singleton.2 (Nat.le_antisymm hdepth hbound)
  | enters _ hroom hrule ih =>
      refine List.forall_mem_cons.2 ⟨hroom, List.forall_mem_append.2 ⟨ih hroom, ?_⟩⟩
      rw [hrule.depth_eq]
      exact List.forall_mem_singleton.2 ⟨Nat.succ_pos _, hroom⟩
  | _ => exact List.forall_mem_nil _

-- Once tripped, the guard lets nothing in, so the trail keeps where it tripped first.
theorem tooDeep_eq (h : Counted tape rule pos trail log reply) :
    reply.trail.tooDeep = trail.tooDeep.or (log.findSome? Crossing.trip?) := by
  induction h with
  | bind_done _ _ ih ihnext =>
      rw [Reply.trail_done] at ih
      rw [ihnext, ih, List.findSome?_append, Option.or_assoc]
  | bind_stuck _ ih | attempt_done _ ih | attempt_stuck _ ih | unknown _ _ ih
  | recorded_done _ ih | recorded_stuck _ ih => exact ih
  | trips hshallow _ => rw [hshallow]; rfl
  | enters hshallow _ _ ih =>
      rw [Reply.trail_shallower, List.findSome?_cons, List.findSome?_append]
      simpa [Crossing.trip?, Trail.deeper, Trail.shallower] using ih
  | miss wanted => simp [Trail.note_tooDeep]
  | _ => simp

end Counted

-- There is such a run of the rule from every trail.
def Countable {α : Type} (tape : Tape) (pos : Nat) (rule : Rule α) : Prop :=
  ∀ trail, ∃ log reply, Counted tape rule pos trail log reply

structure Level.Countable (tape : Tape) (level : Level) : Prop where
  expression : ∀ least pos, Grammar.Countable tape pos (level.expression least)
  operation : ∀ least pos, Grammar.Countable tape pos (level.operation least)
  subquery : ∀ pos, Grammar.Countable tape pos level.subquery

namespace Countable

variable {α β : Type} {tape : Tape} {pos : Nat}

theorem refuse : Countable tape pos (Rule.refuse : Rule α) := fun _ => ⟨_, _, .refuse⟩

theorem bind {rule : Rule α} {next : α → Rule β} (h : Countable tape pos rule)
    (hnext : ∀ value mid, Countable tape mid (next value)) : Countable tape pos (rule >>= next) := by
  intro trail
  obtain ⟨log, reply, hrule⟩ := h trail
  cases reply with
  | done value mid later =>
      obtain ⟨others, reply, hvalue⟩ := hnext value mid later
      exact ⟨_, _, .bind_done hrule hvalue⟩
  | stuck stop later => exact ⟨_, _, .bind_stuck hrule⟩

theorem attempt_bind {rule : Rule α} {next : Option α → Rule β} (h : Countable tape pos rule)
    (hsome : ∀ value mid, Countable tape mid (next (some value)))
    (hnone : Countable tape pos (next none)) : Countable tape pos (attempt rule >>= next) := by
  intro trail
  obtain ⟨log, reply, hrule⟩ := h trail
  cases reply with
  | done value mid later =>
      obtain ⟨others, reply, hvalue⟩ := hsome value mid later
      exact ⟨_, _, .bind_done (.attempt_done hrule) hvalue⟩
  | stuck stop later =>
      obtain ⟨others, reply, hother⟩ := hnone later
      exact ⟨_, _, .bind_done (.attempt_stuck hrule) hother⟩

theorem remembered {least : Nat} {rule : Rule Expr} (h : Countable tape pos rule) :
    Countable tape pos (remembered least rule) := by
  intro trail
  cases hmemo : trail.memo[(pos, least)]? with
  | none =>
      obtain ⟨log, reply, hrule⟩ := h trail
      exact ⟨_, _, .unknown hmemo hrule⟩
  | some found =>
      cases found with
      | none => exact ⟨_, _, .recalled_stuck hmemo⟩
      | some found => exact ⟨_, _, .recalled_done hmemo⟩

theorem record {least : Nat} {rule : Rule Expr} (h : Countable tape pos rule) :
    Countable tape pos (record least rule) := by
  intro trail
  obtain ⟨log, reply, hrule⟩ := h trail
  cases reply with
  | done expr stop later => exact ⟨_, _, .recorded_done hrule⟩
  | stuck stop later => exact ⟨_, _, .recorded_stuck hrule⟩

theorem enter {rule : Rule α} (h : Countable tape pos rule) : Countable tape pos (enter rule) := by
  intro trail
  cases hdeep : trail.tooDeep with
  | some at' => exact ⟨_, _, .blocked (by rw [hdeep, Option.isSome_some])⟩
  | none =>
      rcases Nat.lt_or_ge trail.depth maxNesting with hroom | hbound
      · obtain ⟨log, reply, hrule⟩ := h trail.deeper
        exact ⟨_, _, .enters hdeep hroom hrule⟩
      · exact ⟨_, _, .trips hdeep hbound⟩

end Countable

section Levels

variable {tape : Tape} {calls : Calls} {wide exact : Bool}

theorem Composed.countable {α : Type} {pos : Nat} {rule : Level → Rule α} {P : α → Nat → Prop}
    (h : Composed tape calls wide exact pos rule P) {level : Level}
    (hlevel : level.Countable tape) : Countable tape pos (rule level) := by
  induction h with
  | pure _ => exact fun _ => ⟨_, _, .pure _⟩
  | miss wanted => exact fun _ => ⟨_, _, .miss wanted⟩
  | refuse => exact .refuse
  | look_bind _ ih =>
      intro trail
      obtain ⟨log, reply, hnext⟩ := ih trail
      exact ⟨_, _, .bind_done (.look _) hnext⟩
  | advance_bind _ _ ih =>
      intro trail
      obtain ⟨log, reply, hnext⟩ := ih trail
      exact ⟨_, _, .bind_done .advance hnext⟩
  | bind _ _ ih ihnext => exact ih.bind ihnext
  | attempt_bind _ _ _ ih ihsome ihnone => exact ih.attempt_bind ihsome ihnone
  | expression least => exact hlevel.expression least _
  | operation least => exact hlevel.operation least _
  | subquery _ => exact hlevel.subquery _
  | mono _ _ ih => exact ih

variable (hot : tape.Orderly) (hbehind : ∀ pos, tape.size ≤ pos → tape.kind pos = .finish)

include hot hbehind

theorem level_countable (keep : Bool) (room : Nat) : (level keep room).Countable tape := by
  induction room with
  | zero =>
      refine ⟨fun least pos => ?_, fun _ _ => .enter .refuse, fun _ => .enter .refuse⟩
      cases keep with
      | true => exact .remembered (.enter .refuse)
      | false => exact .enter .refuse
  | succ room ih =>
      refine ⟨fun least pos => ?_, fun least pos => .enter ?_, fun pos => .enter ?_⟩
      · have hrule := (Composed.operators .unspecified true hot hbehind least pos).countable ih
        cases keep with
        | true => exact .remembered (.enter hrule.record)
        | false => exact .enter hrule
      · exact (Composed.connectives .unspecified true hot hbehind least pos).countable ih
      · exact (Composed.bracketed .unspecified pos).countable ih

end Levels

-- How a query is read, and what happens at the guard on the way: in the opening, and in the stages
-- that follow.
inductive Reading (level : Level) (source : String) (tape : Tape) :
    List Crossing → Progress → Prop where
  | opening_done {pos : Nat} {log : List Crossing} {trail : Trail} {found : Stage} :
      Counted tape (opening level) 0 {} log (.done found pos trail) →
      Reading level source tape log { pos, trail, opening := some found }
  | opening_stuck {pos : Nat} {log : List Crossing} {trail : Trail} :
      Counted tape (opening level) 0 {} log (.stuck pos trail) →
      Reading level source tape log (Progress.fail { pos, trail } source tape pos pos trail)
  | stage_done {pos : Nat} {log others : List Crossing} {progress : Progress} {trail : Trail}
      {found : Stage} :
      Reading level source tape log progress → tape.kind progress.pos = .pipe →
      Counted tape (stage level) (tape.next progress.pos) progress.trail.fresh others
        (.done found pos trail) →
      Reading level source tape (log ++ others)
        { progress with pos, trail, later := found :: progress.later }
  | stage_stuck {pos : Nat} {log others : List Crossing} {progress : Progress} {trail : Trail} :
      Reading level source tape log progress → tape.kind progress.pos = .pipe →
      Counted tape (stage level) (tape.next progress.pos) progress.trail.fresh others
        (.stuck pos trail) →
      Reading level source tape (log ++ others) (progress.fail source tape pos pos trail)
  | skip {log : List Crossing} {progress : Progress} :
      Reading level source tape log progress → tape.kind progress.pos ≠ .pipe →
      tape.kind progress.pos ≠ .finish →
      Reading level source tape log (progress.fail source tape progress.pos (tape.next progress.pos)
        ((progress.trail.fresh.note progress.pos (.kind .pipe)).note progress.pos (.kind .finish)))

namespace Reading

variable {level : Level} {source : String} {tape : Tape} {log : List Crossing} {progress : Progress}

-- Between the stages the counter stands at nothing.
theorem depth_eq (h : Reading level source tape log progress) : progress.trail.depth = 0 := by
  induction h with
  | opening_done hrule | opening_stuck hrule => exact hrule.depth_eq
  | stage_done _ _ hrule ih | stage_stuck _ _ hrule ih => exact hrule.depth_eq.trans ih
  | skip _ _ _ ih => simpa [Progress.fail, Trail.fresh, Trail.note_depth] using ih

theorem sound (h : Reading level source tape log progress) :
    ∀ crossing ∈ log, crossing.Sound := by
  induction h with
  | opening_done hrule | opening_stuck hrule => exact hrule.sound (Nat.zero_le _)
  | stage_done hbefore _ hrule ih | stage_stuck hbefore _ hrule ih =>
      have hdepth := Nat.le_trans (Nat.le_of_eq hbefore.depth_eq) (Nat.zero_le maxNesting)
      exact List.forall_mem_append.2 ⟨ih, hrule.sound hdepth⟩
  | skip _ _ _ ih => exact ih

theorem tooDeep_eq (h : Reading level source tape log progress) :
    progress.trail.tooDeep = log.findSome? Crossing.trip? := by
  induction h with
  | opening_done hrule | opening_stuck hrule => exact hrule.tooDeep_eq
  | stage_done _ _ hrule ih | stage_stuck _ _ hrule ih =>
      have hdeep := hrule.tooDeep_eq
      simp only [Trail.fresh, ih] at hdeep
      rw [List.findSome?_append]
      exact hdeep
  | skip _ _ _ ih => simpa [Progress.fail, Trail.fresh, Trail.note_tooDeep] using ih

-- What is complained about on the way is that a token does not fit.
theorem errors (h : Reading level source tape log progress) :
    ∀ error ∈ progress.errors, ∀ position, error ≠ .grammatical position .tooDeep := by
  have hcomplaint : ∀ pos trail position,
      complaint source tape pos trail ≠ .grammatical position .tooDeep := by
    intro pos trail position heq
    simp only [complaint, ParseError.grammatical.injEq, reduceCtorEq, and_false] at heq
  induction h with
  | opening_done _ => exact List.forall_mem_nil _
  | opening_stuck _ => exact List.forall_mem_singleton.2 (hcomplaint _ _)
  | stage_done _ _ _ ih => exact ih
  | stage_stuck _ _ _ ih | skip _ _ _ ih => exact List.forall_mem_cons.2 ⟨hcomplaint _ _, ih⟩

end Reading

section Reads

variable {tape : Tape} (hot : tape.Orderly)
  (hbehind : ∀ pos, tape.size ≤ pos → tape.kind pos = .finish) (keep : Bool) (source : String)

include hot hbehind

theorem readOpening_reading (room : Nat) : ∃ log,
    Reading (level keep room) source tape log (readOpening (level keep room) source tape) := by
  have hlevel := level_countable hot hbehind keep room
  obtain ⟨log, reply, hrule⟩ := (Composed.opening .unspecified 0).countable hlevel {}
  unfold readOpening
  rw [hrule.reply_eq]
  cases reply with
  | done found pos trail => exact ⟨_, .opening_done hrule⟩
  | stuck pos trail => exact ⟨_, .opening_stuck hrule⟩

theorem readLater?_reading {room : Nat} {log : List Crossing} {progress later : Progress}
    (h : Reading (level keep room) source tape log progress)
    (hread : readLater? (level keep room) source tape progress = some later) :
    ∃ others, Reading (level keep room) source tape (log ++ others) later := by
  have hlevel := level_countable hot hbehind keep room
  unfold readLater? at hread
  simp only at hread
  split at hread
  · cases hread
  · next hpipe =>
    obtain ⟨others, reply, hrule⟩ := (Composed.stage .unspecified _).countable hlevel
      progress.trail.fresh
    rw [hrule.reply_eq] at hread
    cases reply with
    | done found pos trail =>
        obtain rfl := Option.some.inj hread
        exact ⟨others, .stage_done h hpipe hrule⟩
    | stuck pos trail =>
        obtain rfl := Option.some.inj hread
        exact ⟨others, .stage_stuck h hpipe hrule⟩
  · next hfinish hpipe =>
    obtain rfl := Option.some.inj hread
    refine ⟨[], ?_⟩
    rw [List.append_nil]
    exact .skip h hpipe hfinish

theorem readStages_reading {room : Nat} {log : List Crossing} {progress : Progress}
    (h : Reading (level keep room) source tape log progress) (fuel : Nat) : ∃ others,
    Reading (level keep room) source tape (log ++ others)
      (readStages (level keep room) source tape fuel progress) := by
  induction fuel generalizing log progress with
  | zero => exact ⟨[], by rwa [List.append_nil]⟩
  | succ fuel ih =>
      simp only [readStages]
      cases hread : readLater? (level keep room) source tape progress with
      | none => exact ⟨[], by rwa [List.append_nil]⟩
      | some later =>
          obtain ⟨first, hlater⟩ := readLater?_reading hot hbehind keep source h hread
          obtain ⟨others, hrest⟩ := ih hlater
          exact ⟨first ++ others, by rwa [← List.append_assoc]⟩

end Reads

-- Where the guard has tripped decides how reading ends.
theorem finish_guarded {level : Level} {source : String} {tape : Tape} {log : List Crossing}
    {progress : Progress} (h : Reading level source tape log progress) :
    (∀ pos, log.findSome? Crossing.trip? = some pos → finish source tape progress =
      .error [.grammatical (Position.locate source (tape.mark pos).start) .tooDeep]) ∧
    (log.findSome? Crossing.trip? = none → ∀ errors, finish source tape progress = .error errors →
      ∀ error ∈ errors, ∀ position, error ≠ .grammatical position .tooDeep) := by
  have hdeep := h.tooDeep_eq
  constructor
  · intro pos htrip
    rw [htrip] at hdeep
    simp only [finish, hdeep]
  · intro hnone errors herrors error hmem
    rw [hnone] at hdeep
    simp only [finish, hdeep] at herrors
    split at herrors
    · cases herrors
    · obtain rfl := Except.error.inj herrors
      exact h.errors error (List.mem_reverse.1 hmem)

-- However a list of tokens is read, the counter of the trail is back at nothing in the end, and for
-- each rule on the way it is back where it was; it never passes the bound and is never lowered below
-- nothing. If the guard trips, the place where it first does is the only error; if it does not, no
-- error is about the nesting.
theorem nesting_guarded (keep : Bool) (source : String) (tokens : List Token) :
    let tape := Tape.ofTokens source tokens
    let rules := level keep maxNesting
    let read := readStages rules source tape tape.size (readOpening rules source tape)
    read.trail.depth = 0 ∧ (∃ log, Reading rules source tape log read) ∧
    (∀ log, Reading rules source tape log read →
      (∀ crossing ∈ log, crossing.Sound) ∧
      (∀ pos, log.findSome? Crossing.trip? = some pos → pipelineWith keep source tokens =
        .error [.grammatical (Position.locate source (tape.mark pos).start) .tooDeep]) ∧
      (log.findSome? Crossing.trip? = none → ∀ errors,
        pipelineWith keep source tokens = .error errors →
        ∀ error ∈ errors, ∀ position, error ≠ .grammatical position .tooDeep)) ∧
    ∀ (α : Type) (rule : Rule α) pos trail log reply, Counted tape rule pos trail log reply →
      rule tape pos trail = reply ∧ reply.trail.depth = trail.depth ∧
        (trail.depth ≤ maxNesting → ∀ crossing ∈ log, crossing.Sound) := by
  intro tape rules read
  have hot := Tape.ofTokens_orderly source tokens
  have hbehind : ∀ pos, tape.size ≤ pos → tape.kind pos = .finish :=
    fun _ => Tape.kind_of_size_le source tokens
  obtain ⟨log, hopening⟩ := readOpening_reading hot hbehind keep source maxNesting
  obtain ⟨others, hread⟩ := readStages_reading hot hbehind keep source hopening tape.size
  refine ⟨hread.depth_eq, ⟨_, hread⟩, fun log h => ?_, fun α rule pos trail log reply h => ?_⟩
  · obtain ⟨htrips, hkeeps⟩ := finish_guarded h
    exact ⟨h.sound, htrips, hkeeps⟩
  · exact ⟨h.reply_eq, h.depth_eq, h.sound⟩

-- The guard does trip: brackets may open 128 times inside one another.
theorem nesting_guarded_brackets :
    let source := String.ofList (List.replicate 129 '[')
    let tokens := (List.range 129).map (fun start => ⟨.openBracket, "[", start⟩) ++
      [⟨.finish, "", 129⟩]
    let tape := Tape.ofTokens source tokens
    let rules := level true maxNesting
    let read := readStages rules source tape tape.size (readOpening rules source tape)
    ∃ log pos, Reading rules source tape log read ∧ log.findSome? Crossing.trip? = some pos ∧
      pipelineWith true source tokens =
        .error [.grammatical (Position.locate source (tape.mark pos).start) .tooDeep] := by
  intro source tokens tape rules read
  obtain ⟨-, ⟨log, hread⟩, hguarded, -⟩ := nesting_guarded true source tokens
  obtain ⟨-, htrips, hkeeps⟩ := hguarded log hread
  cases htrip : log.findSome? Crossing.trip? with
  | some pos => exact ⟨log, pos, hread, htrip, htrips pos htrip⟩
  | none =>
      have herrors : (match pipelineWith true source tokens with
          | .error errors => errors
          | .ok _ => []) = [.grammatical ⟨1, 129⟩ .tooDeep] := by
        decide +kernel
      cases hpipeline : pipelineWith true source tokens with
      | ok pipeline =>
          rw [hpipeline] at herrors
          cases herrors
      | error errors =>
          rw [hpipeline] at herrors
          have hmem : ParseError.grammatical ⟨1, 129⟩ .tooDeep ∈ errors := by
            rw [show errors = _ from herrors]
            exact List.mem_cons_self
          exact absurd rfl (hkeeps htrip errors hpipeline _ hmem ⟨1, 129⟩)

end SearchPipeline.Grammar
