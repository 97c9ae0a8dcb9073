namespace SearchPipeline

-- Lines and columns start at one, and columns count characters, not bytes.
structure Position where
  line : Nat
  column : Nat
deriving DecidableEq, Repr

namespace Position

def start : Position := ⟨1, 1⟩

def step (here : Position) (c : Char) : Position :=
  if c = '\n' then ⟨here.line + 1, 1⟩ else ⟨here.line, here.column + 1⟩

-- The position behind a text that begins at the start.
def behind (cs : List Char) : Position := cs.foldl step start

end Position

namespace Text

def byteLength : List Char → Nat
  | [] => 0
  | c :: cs => c.utf8Size + byteLength cs

-- The characters that end at or before a byte offset.
def beforeOffset : List Char → Nat → List Char
  | [], _ => []
  | c :: cs, offset =>
      if c.utf8Size ≤ offset then c :: beforeOffset cs (offset - c.utf8Size) else []

-- The characters that begin at or behind a byte offset, when it lies between characters.
def fromOffset : List Char → Nat → List Char
  | [], _ => []
  | c :: cs, offset =>
      if c.utf8Size ≤ offset then fromOffset cs (offset - c.utf8Size) else c :: cs

-- The part of a text between two byte offsets.
def slice (cs : List Char) (first last : Nat) : List Char :=
  beforeOffset (fromOffset cs first) (last - first)

end Text

open Text in
def Position.locate (source : String) (offset : Nat) : Position :=
  Position.behind (beforeOffset source.toList offset)

-- An offset beyond the end stands for the end; one inside a character has no position.
open Text in
def Position.locate? (source : String) (offset : Nat) : Option Position :=
  let taken := beforeOffset source.toList offset
  if byteLength taken = min offset source.utf8ByteSize then some (Position.behind taken) else none

end SearchPipeline
