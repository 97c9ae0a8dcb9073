namespace SearchPipeline

-- Token indices from `start` up to `stop`, counted in the full list with blanks and comments.
structure Span where
  start : Nat
  stop : Nat
deriving DecidableEq, Repr, Inhabited

namespace Span

def single (index : Nat) : Span := ⟨index, index + 1⟩

-- The smallest span that holds both.
def join (a b : Span) : Span := ⟨min a.start b.start, max a.stop b.stop⟩

def overlaps (a b : Span) : Bool := a.start < b.stop && b.start < a.stop

def compare (a b : Span) : Ordering :=
  (Ord.compare a.start b.start).then (Ord.compare a.stop b.stop)

end Span

end SearchPipeline
