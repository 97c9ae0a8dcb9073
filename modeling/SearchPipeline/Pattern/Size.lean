import SearchPipeline.Pattern.Match

namespace SearchPipeline.Pattern

def cell : Nat := 32

-- A cell with two ways on.
def fork : Nat := cell + 8

namespace CharSet

-- Every member is encoded in one byte.
def isPlain : CharSet → Bool
  | nothing => true
  | range _ high => high.toNat < 128
  | digit | word | blank | complement _ => false
  | union a b => a.isPlain && b.isPlain
  | inter a b => a.isPlain || b.isPlain
  | anyCase a => a.isPlain

-- The classes of many ranges take much room, and their complements too.
def room : CharSet → Nat
  | nothing => cell
  | range low high =>
      if low = high then cell * low.utf8Size
      else if high.toNat < 128 then 2 * cell + 8
      else 4 * cell
  | digit => 5116
  | word => 49900
  | blank => 680
  | complement digit => 12752
  | complement word => 46420
  | complement blank => 1924
  | complement a => if a.isPlain then 1000 else 1000 + a.room
  | union a b =>
      if a.isPlain && b.isPlain then 2 * cell + 24
      else if a.isPlain then b.room + 8
      else if b.isPlain then a.room + 8
      else a.room + b.room
  | inter a b => max a.room b.room
  | anyCase a => a.room + cell

end CharSet

-- The pattern takes no character, wherever it fits.
def readsNothing : Pattern → Bool
  | empty | .anchor _ => true
  | char _ => false
  | seq a b | alt a b => a.readsNothing && b.readsNothing
  | copies inner _ high => high == some 0 || inner.readsNothing

def room : Pattern → Nat
  | empty | .anchor _ => cell
  | char set => set.room
  | seq a b => a.room + b.room
  | alt a b => a.room + b.room + fork
  | copies inner low high =>
      if inner.readsNothing then inner.room + fork
      else
        match high with
        | none => max low 1 * inner.room + fork
        | some high => low * inner.room + (high - low) * (inner.room + fork) + cell

-- Patterns that take more room are refused.
def maxRoom : Nat := 10 * 1024 * 1024

end SearchPipeline.Pattern
