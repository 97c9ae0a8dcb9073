import SearchPipeline.Grammar.Pipeline

namespace SearchPipeline

namespace Grammar

-- What is wrong at the furthest position that the rules reached.
def complaint (source : String) (tape : Tape) (pos : Nat) (trail : Trail) : ParseError :=
  let mark := tape.mark (trail.furthest.getD pos)
  let found := if mark.kind = .finish then Kind.finish.describe else mark.text
  .grammatical (Position.locate source mark.start) (.unexpected found trail.wanted)

-- The next `|` outside the brackets that open behind `pos`, or the end.
def recoverFrom (tape : Tape) : Nat → Nat → Nat → Nat
  | 0, _, pos => pos
  | fuel + 1, depth, pos =>
    match tape.kind pos with
    | .finish => pos
    | .pipe => if depth = 0 then pos else recoverFrom tape fuel depth (tape.next pos)
    | .openBracket => recoverFrom tape fuel (depth + 1) (tape.next pos)
    | .closeBracket => recoverFrom tape fuel (depth - 1) (tape.next pos)
    | _ => recoverFrom tape fuel depth (tape.next pos)

def recover (tape : Tape) (pos : Nat) : Nat := recoverFrom tape (tape.size - pos) 0 pos

-- How far reading has come. Stages and errors are collected in reverse.
structure Progress where
  pos : Nat
  trail : Trail
  opening : Option Stage := none
  later : List Stage := []
  errors : List ParseError := []

namespace Progress

-- Notes an error and skips to the next stage.
def fail (progress : Progress) (source : String) (tape : Tape) (pos resume : Nat) (trail : Trail) :
    Progress :=
  { progress with
    pos := recover tape resume
    trail := trail.fresh
    errors := complaint source tape pos trail :: progress.errors }

end Progress

def readOpening (level : Level) (source : String) (tape : Tape) : Progress :=
  match opening level tape 0 {} with
  | .done stage pos trail => { pos, trail, opening := some stage }
  | .stuck pos trail => Progress.fail { pos, trail } source tape pos pos trail

-- Reads one `|` and its stage, or complains about what stands in its place. Nothing is left to
-- read at the end.
def readLater? (level : Level) (source : String) (tape : Tape) (progress : Progress) :
    Option Progress :=
  let trail := progress.trail.fresh
  match tape.kind progress.pos with
  | .finish => none
  | .pipe =>
    match stage level tape (tape.next progress.pos) trail with
    | .done found pos trail => some { progress with pos, trail, later := found :: progress.later }
    | .stuck pos trail => some (progress.fail source tape pos pos trail)
  | _ =>
    let trail := (trail.note progress.pos (.kind .pipe)).note progress.pos (.kind .finish)
    some (progress.fail source tape progress.pos (tape.next progress.pos) trail)

-- Reads stages to the end. Each takes a token, so there are fewer than tokens.
def readStages (level : Level) (source : String) (tape : Tape) : Nat → Progress → Progress
  | 0, progress => progress
  | fuel + 1, progress =>
    match readLater? level source tape progress with
    | some progress => readStages level source tape fuel progress
    | none => progress

def finish (source : String) (tape : Tape) (progress : Progress) :
    Except (List ParseError) Pipeline :=
  match progress.trail.tooDeep with
  | some pos =>
      .error [.grammatical (Position.locate source (tape.mark pos).start) .tooDeep]
  | none =>
    match progress.opening, progress.errors with
    | some opening, [] =>
        .ok ⟨opening, progress.later.reverse, ⟨tape.index 0, tape.index progress.pos⟩⟩
    | _, errors => .error errors.reverse

-- The pipeline that a list of tokens forms, or everything that is wrong with it. With `keep`,
-- expressions once read are remembered, which changes the cost of reading and nothing else.
def pipelineWith (keep : Bool) (source : String) (tokens : List Token) :
    Except (List ParseError) Pipeline :=
  let tape := Tape.ofTokens source tokens
  let level := level keep maxNesting
  finish source tape (readStages level source tape tape.size (readOpening level source tape))

def pipeline (source : String) (tokens : List Token) : Except (List ParseError) Pipeline :=
  pipelineWith true source tokens

end Grammar

-- Reads a query. A query of blanks alone is empty.
def Query.parse (source : String) : Except (List ParseError) Query :=
  if Text.isBlankText source then .error [.emptyQuery]
  else do
    let tokens ← Scan.tokensOrErrors source
    let pipeline ← Grammar.pipeline source tokens
    return ⟨source, tokens, pipeline⟩

end SearchPipeline
