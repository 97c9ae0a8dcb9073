import SearchPipeline.Text.Blank
import SearchPipeline.Token.Basic
import SearchPipeline.Token.Span

namespace SearchPipeline

structure Replacement where
  span : Span
  text : String
deriving DecidableEq, Repr

inductive SpliceError where
  -- The span is empty, runs backwards or leaves the list of tokens.
  | outside (span : Span)
  | overlap (span existing : Span)
deriving DecidableEq, Repr

def Span.describe (span : Span) : String :=
  "TokenSpan \x7b start: " ++ toString span.start ++ ", end: " ++ toString span.stop ++ " \x7d"

def SpliceError.message : SpliceError → String
  | outside span => "replacement span " ++ span.describe ++ " is outside the token stream"
  | overlap span existing =>
      "replacement span " ++ span.describe ++ " overlaps " ++ existing.describe

-- Tokens and the replacements registered for them, by rising start.
structure Splice where
  tokens : List Token
  replacements : List Replacement := []

namespace Splice

def insert (new : Replacement) : List Replacement → List Replacement
  | [] => [new]
  | first :: rest =>
      if new.span.start < first.span.start then new :: first :: rest
      else if new.span.start = first.span.start then new :: rest
      else first :: insert new rest

-- The last replacement that starts before an index.
def lastBefore? (replacements : List Replacement) (index : Nat) : Option Replacement :=
  (replacements.filter (·.span.start < index)).getLast?

-- Registers a replacement. The spans already registered do not overlap one another, so only the
-- last of those that start before the end of the new one can overlap it.
def replace (splice : Splice) (span : Span) (text : String) : Except SpliceError Splice :=
  if span.start < span.stop ∧ span.stop ≤ splice.tokens.length then
    match lastBefore? splice.replacements span.stop with
    | some existing =>
        if existing.span.overlaps span then .error (.overlap span existing.span)
        else .ok { splice with replacements := insert ⟨span, text⟩ splice.replacements }
    | none => .ok { splice with replacements := insert ⟨span, text⟩ splice.replacements }
  else .error (.outside span)

-- The pieces of the result from a token index on, after `skip` tokens that have been replaced.
-- The end of the query has no text.
def pieces (replacements : List Replacement) (skip index : Nat) : List Token → List String
  | [] => []
  | token :: rest =>
    match skip with
    | skip + 1 => pieces replacements skip (index + 1) rest
    | 0 =>
      match replacements.find? (·.span.start == index) with
      | some found =>
          found.text :: pieces replacements (found.span.stop - index - 1) (index + 1) rest
      | none =>
          (if token.kind = .finish then "" else token.text) ::
            pieces replacements 0 (index + 1) rest

def render (splice : Splice) : String :=
  Text.trimmed (String.join (pieces splice.replacements 0 0 splice.tokens))

-- All replacements at once.
def replaceAll (tokens : List Token) (replacements : List Replacement) :
    Except SpliceError String := do
  let splice ← replacements.foldlM (fun splice new => splice.replace new.span new.text)
    ({ tokens } : Splice)
  return splice.render

end Splice

end SearchPipeline
