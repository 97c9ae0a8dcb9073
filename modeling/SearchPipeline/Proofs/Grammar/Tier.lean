import SearchPipeline.Grammar.Parse

namespace SearchPipeline.Grammar

open Rule

-- How a rule is entered: not at all once the nesting was too deep, and only below the bound.
section Enter

variable {α : Type} {tape : Tape} {rule : Rule α} {pos : Nat} {trail : Trail}

theorem enter_blocked (hdeep : trail.tooDeep.isSome = true) :
    enter rule tape pos trail = .stuck pos trail := if_pos hdeep

theorem enter_trips (hshallow : trail.tooDeep = none) (hbound : maxNesting ≤ trail.depth) :
    enter rule tape pos trail = .stuck pos { trail with tooDeep := some pos } := by
  rw [enter, hshallow]
  exact if_pos hbound

theorem enter_of_lt (hshallow : trail.tooDeep = none) (hroom : trail.depth < maxNesting) :
    enter rule tape pos trail = (rule tape pos trail.deeper).shallower := by
  rw [enter, hshallow]
  exact if_neg (Nat.not_le.2 hroom)

end Enter

-- The rules of the grammar without the counter. How deep a rule is nested is the number of its
-- tier, and the rules that are too deep are those of tier zero. From nothing on, they read as the
-- rules with the counter do.
def whileShallow {α : Type} (rule : Rule α) : Rule α := fun tape pos trail =>
  if trail.tooDeep.isSome then .stuck pos trail else rule tape pos trail

def sink {α : Type} : Rule α := fun _ pos trail => .stuck pos { trail with tooDeep := some pos }

def tier (keep : Bool) : Nat → Level
  | 0 =>
    { operation := fun _ => whileShallow sink
      expression := fun least =>
        if keep then remembered least (whileShallow sink) else whileShallow sink
      subquery := whileShallow sink }
  | room + 1 =>
    let inner := tier keep room
    let operators := operators inner.expression
    { operation := fun least => whileShallow (connectives inner.expression inner.operation least)
      expression := fun least =>
        if keep then remembered least (whileShallow (record least (operators least)))
        else whileShallow (operators least)
      subquery := whileShallow (bracketed inner) }

end SearchPipeline.Grammar
