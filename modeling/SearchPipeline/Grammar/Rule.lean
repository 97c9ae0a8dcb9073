import SearchPipeline.Grammar.Failure
import SearchPipeline.Tree.Stage
import Std.Data.TreeMap

namespace SearchPipeline.Grammar

-- A token that is neither blank nor comment, with its index in the full list of tokens.
structure Mark where
  kind : Kind
  text : String
  index : Nat
  start : Nat
deriving DecidableEq, Repr

-- The significant tokens. The last mark is always the end of the query.
structure Tape where
  marks : Array Mark
  final : Mark

namespace Tape

def marksOf (tokens : List Token) : List Mark :=
  (tokens.zipIdx.filter (!·.1.isTrivia)).map fun (token, index) =>
    ⟨token.kind, token.text, index, token.start⟩

-- A list of tokens that lacks its end is read as if the end followed.
def ofTokens (source : String) (tokens : List Token) : Tape :=
  let marks := marksOf tokens
  let final : Mark := ⟨.finish, "", tokens.length, source.utf8ByteSize⟩
  if (marks.getLast?.map (·.kind)) = some .finish then ⟨marks.toArray, final⟩
  else ⟨(marks ++ [final]).toArray, final⟩

def size (tape : Tape) : Nat := tape.marks.size

-- The mark at a position; behind the tape there is only the end.
def mark (tape : Tape) (pos : Nat) : Mark := tape.marks[pos]?.getD tape.final

def kind (tape : Tape) (pos : Nat) : Kind := (tape.mark pos).kind

def index (tape : Tape) (pos : Nat) : Nat := (tape.mark pos).index

-- The position behind a token. The end is never passed.
def next (tape : Tape) (pos : Nat) : Nat := if pos + 1 < tape.size then pos + 1 else pos

-- From the mark at `first` to the last mark before `stop`, and at least the former.
def span (tape : Tape) (first stop : Nat) : Span :=
  ⟨tape.index first, tape.index (max stop (first + 1) - 1) + 1⟩

-- Nothing stands between this mark and the one before.
def attachedLeft (tape : Tape) (pos : Nat) : Bool :=
  pos > 0 && tape.index pos == tape.index (pos - 1) + 1

-- Nothing stands between this mark and the one behind, which is not the end.
def attachedRight (tape : Tape) (pos : Nat) : Bool :=
  tape.index (pos + 1) == tape.index pos + 1 && tape.kind (pos + 1) != .finish

end Tape

def compareKeys : Nat × Nat → Nat × Nat → Ordering :=
  compareLex (compareOn Prod.fst) (compareOn Prod.snd)

-- What became of reading an expression, by position and by the least strength of its
-- operators: the expression and the position behind it, or nothing.
abbrev Memo := Std.TreeMap (Nat × Nat) (Option (Expr × Nat)) compareKeys

-- What all attempts so far have left behind.
structure Trail where
  memo : Memo := ∅
  -- How many operations, expressions and subqueries have been entered and not left.
  depth : Nat := 0
  -- Where the nesting first went too deep.
  tooDeep : Option Nat := none
  -- The furthest position where a rule failed, and what was wanted there.
  furthest : Option Nat := none
  wanted : List Wanted := []

namespace Trail

def deeper (trail : Trail) : Trail := { trail with depth := trail.depth + 1 }

def shallower (trail : Trail) : Trail := { trail with depth := trail.depth - 1 }

-- Forgets where rules failed, at the start of a stage.
def fresh (trail : Trail) : Trail := { trail with furthest := none, wanted := [] }

-- Notes a failure. One further on displaces those before it.
def note (trail : Trail) (pos : Nat) (wanted : Wanted) : Trail :=
  match trail.furthest with
  | none => { trail with furthest := some pos, wanted := [wanted] }
  | some furthest =>
      if pos < furthest then trail
      else if pos = furthest then
        if wanted ∈ trail.wanted then trail
        else { trail with wanted := trail.wanted ++ [wanted] }
      else { trail with furthest := some pos, wanted := [wanted] }

end Trail

-- A rule that is stuck keeps the position it had reached: reporting and recovery start from there.
inductive Reply (α : Type) where
  | done (value : α) (pos : Nat) (trail : Trail)
  | stuck (pos : Nat) (trail : Trail)

def Reply.shallower {α : Type} : Reply α → Reply α
  | .done value pos trail => .done value pos trail.shallower
  | .stuck pos trail => .stuck pos trail.shallower

def Rule (α : Type) : Type := Tape → Nat → Trail → Reply α

namespace Rule

variable {α β σ : Type}

protected def pure (value : α) : Rule α := fun _ pos trail => .done value pos trail

protected def bind (rule : Rule α) (next : α → Rule β) : Rule β := fun tape pos trail =>
  match rule tape pos trail with
  | .done value pos trail => next value tape pos trail
  | .stuck pos trail => .stuck pos trail

instance : Monad Rule where
  pure := Rule.pure
  bind := Rule.bind

def position : Rule Nat := fun _ pos trail => .done pos pos trail

-- Facts about the tape at the present position.
def look (view : Tape → Nat → α) : Rule α := fun tape pos trail => .done (view tape pos) pos trail

def peek : Rule Kind := look Tape.kind

def peekAt (ahead : Nat) : Rule Kind := look fun tape pos => tape.kind (pos + ahead)

-- Takes the token at hand.
def advance : Rule Mark := fun tape pos trail => .done (tape.mark pos) (tape.next pos) trail

-- Fails for want of something.
def miss (wanted : Wanted) : Rule α := fun _ pos trail => .stuck pos (trail.note pos wanted)

-- Fails without a note.
def refuse : Rule α := fun _ pos trail => .stuck pos trail

def expect (kind : Kind) : Rule Mark := do
  if (← peek) = kind then advance else miss (.kind kind)

-- Takes a token of a kind if it is there.
def eat (kind : Kind) : Rule Bool := do
  if (← peek) = kind then
    let _ ← advance
    return true
  else
    return false

-- Tries a rule. If it is stuck, the position is as before and the trail remains.
def attempt (rule : Rule α) : Rule (Option α) := fun tape pos trail =>
  match rule tape pos trail with
  | .done value pos trail => .done (some value) pos trail
  | .stuck _ trail => .done none pos trail

-- The first alternative that is done. If all are stuck, so is this, where the last one is.
def firstOf : List (Rule α) → Rule α
  | [] => refuse
  | [rule] => rule
  | rule :: rest => do
    match ← attempt rule with
    | some value => return value
    | none => firstOf rest

-- The span of the tokens since a position.
def spanFrom (first : Nat) : Rule Span := look fun tape pos => tape.span first pos

-- Repeats a step until it declines, at most `fuel` times.
def iterate (step : σ → Rule (Option σ)) : Nat → σ → Rule σ
  | 0, state => return state
  | fuel + 1, state => do
    match ← step state with
    | some state => iterate step fuel state
    | none => return state

-- Repeats a step until it declines. A step that does not decline takes a token, so there are
-- fewer steps than tokens left.
def repeatStep (step : σ → Rule (Option σ)) (state : σ) : Rule σ := do
  let fuel ← look fun tape pos => tape.size - pos
  iterate step fuel state

end Rule

end SearchPipeline.Grammar
