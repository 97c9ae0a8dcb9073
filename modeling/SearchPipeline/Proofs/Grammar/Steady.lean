import SearchPipeline.Proofs.Grammar.ComposedPipeline

namespace SearchPipeline.Grammar

open Rule

structure Level.StaysDeep (tape : Tape) (level : Level) : Prop where
  expression : ∀ least pos, Rule.StaysDeep tape pos (level.expression least)
  operation : ∀ least pos, Rule.StaysDeep tape pos (level.operation least)
  subquery : ∀ pos, Rule.StaysDeep tape pos level.subquery

theorem tier_staysDeep (tape : Tape) (keep : Bool) (room : Nat) :
    (tier keep room).StaysDeep tape := by
  cases room with
  | zero =>
      refine ⟨fun least pos => ?_, fun least pos => .whileShallow, fun pos => .whileShallow⟩
      cases keep with
      | true => exact .remembered .whileShallow
      | false => exact .whileShallow
  | succ room =>
      refine ⟨fun least pos => ?_, fun least pos => .whileShallow, fun pos => .whileShallow⟩
      cases keep with
      | true => exact .remembered .whileShallow
      | false => exact .whileShallow

variable {tape : Tape} {calls : Calls} {wide exact : Bool}

theorem Composed.staysDeep {α : Type} {pos : Nat} {rule : Level → Rule α} {P : α → Nat → Prop}
    (h : Composed tape calls wide exact pos rule P) {level : Level} (hlevel : level.StaysDeep tape) :
    Rule.StaysDeep tape pos (rule level) := by
  induction h with
  | pure _ => exact fun _ _ => rfl
  | miss wanted => exact fun _ _ => Trail.note_tooDeep _ _
  | refuse => exact fun _ _ => rfl
  | look_bind _ ih => exact ih
  | advance_bind _ _ ih => exact ih
  | bind _ _ ih ihnext => exact ih.bind ihnext
  | attempt_bind _ _ _ ih ihsome ihnone => exact ih.attempt_bind ihsome ihnone
  | expression least => exact hlevel.expression least _
  | operation least => exact hlevel.operation least _
  | subquery _ => exact hlevel.subquery _
  | mono _ _ ih => exact ih

structure Level.Steady (tape : Tape) (room : Nat) : Prop where
  expression : ∀ least pos, Rule.Steady tape room pos fun level => level.expression least
  operation : ∀ least pos, Rule.Steady tape room pos fun level => level.operation least
  subquery : ∀ pos, Rule.Steady tape room pos fun level => level.subquery

theorem Composed.steady {α : Type} {pos room : Nat} {rule : Level → Rule α} {P : α → Nat → Prop}
    (h : Composed tape calls wide exact pos rule P) (hlevel : Level.Steady tape room) :
    Rule.Steady tape room pos rule := by
  have hdeep := tier_staysDeep tape false room
  induction h with
  | pure _ => exact .inl ⟨.done _ _, [], .of_plays fun _ _ => rfl, fun _ _ => rfl⟩
  | miss wanted =>
      exact .inl ⟨.stuck _, [(_, wanted)], .of_plays fun _ _ => rfl, fun _ _ => rfl⟩
  | refuse => exact .inl ⟨.stuck _, [], .of_plays fun _ _ => rfl, fun _ _ => rfl⟩
  | look_bind _ ih => exact ih
  | advance_bind _ _ ih => exact ih
  | bind _ hnext ih ihnext =>
      obtain ⟨value | mid, notes, hsettles, hplays⟩ | hsinks := ih
      · obtain ⟨outcome, notes', hsettles', hplays'⟩ | hsinks := ihnext value _
        · exact .inl ⟨outcome, _, hsettles.bind_done hsettles', hplays.bind_done hplays'⟩
        · exact .inr (.bind_done hplays hsinks)
      · exact .inl ⟨.stuck mid, notes, hsettles.bind_stuck, hplays.bind_stuck⟩
      · exact .inr (hsinks.bind fun value mid => (hnext value mid).staysDeep hdeep)
  | attempt_bind _ hsome hnone ih ihsome ihnone =>
      obtain ⟨value | mid, notes, hsettles, hplays⟩ | hsinks := ih
      · obtain ⟨outcome, notes', hsettles', hplays'⟩ | hsinks := ihsome value _
        · exact .inl ⟨outcome, _, hsettles.attempt_done.bind_done hsettles',
            hplays.attempt_done.bind_done hplays'⟩
        · exact .inr (.bind_done hplays.attempt_done hsinks)
      · obtain ⟨outcome, notes', hsettles', hplays'⟩ | hsinks := ihnone
        · exact .inl ⟨outcome, _, hsettles.attempt_stuck.bind_done hsettles',
            hplays.attempt_stuck.bind_done hplays'⟩
        · exact .inr (.bind_done hplays.attempt_stuck hsinks)
      · exact .inr (hsinks.attempt_bind (fun value mid => (hsome value mid).staysDeep hdeep)
          (hnone.staysDeep hdeep))
  | expression least => exact hlevel.expression least _
  | operation least => exact hlevel.operation least _
  | subquery _ => exact hlevel.subquery _
  | mono _ _ ih => exact ih

-- Nothing need be said of the trees for that.
def Calls.unspecified : Calls := ⟨fun _ _ _ _ => True, fun _ _ _ _ => True, fun _ _ _ => True⟩

theorem tier_steady (hot : tape.Orderly) (hbehind : ∀ pos, tape.size ≤ pos → tape.kind pos = .finish)
    (room : Nat) : Level.Steady tape room := by
  have hsinks : ∀ {α : Type} (pos : Nat), Sinks tape pos (whileShallow sink : Rule α) :=
    fun pos => Sinks.sink.whileShallow
  induction room with
  | zero => exact ⟨fun _ pos => .inr (hsinks pos), fun _ pos => .inr (hsinks pos),
      fun pos => .inr (hsinks pos)⟩
  | succ room ih =>
      refine ⟨fun least pos => ?_, fun least pos => ?_, fun pos => ?_⟩
      · exact ((Composed.operators .unspecified true hot hbehind least pos).steady ih).of_inner fun _ => rfl
      · exact ((Composed.connectives .unspecified true hot hbehind least
          pos).steady ih).of_inner fun _ => rfl
      · exact ((Composed.bracketed .unspecified pos).steady ih).of_inner fun _ => rfl

end SearchPipeline.Grammar
