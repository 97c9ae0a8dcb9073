namespace SearchPipeline.Text

-- The number of leading characters that `more` accepts, where `more` sees a character together
-- with everything behind it.
def runLength (more : Char → List Char → Bool) : List Char → Nat
  | [] => 0
  | c :: cs => if more c cs then runLength more cs + 1 else 0

-- The number of leading characters in a class.
def classLength (inClass : Char → Bool) (cs : List Char) : Nat :=
  runLength (fun c _ => inClass c) cs

-- Where `mark` first occurs, in characters from the start.
def indexOf? (mark : List Char) : List Char → Option Nat
  | [] => if mark.isEmpty then some 0 else none
  | c :: cs => if mark.isPrefixOf (c :: cs) then some 0 else (indexOf? mark cs).map (· + 1)

def headIs (inClass : Char → Bool) : List Char → Bool
  | [] => false
  | c :: _ => inClass c

end SearchPipeline.Text
