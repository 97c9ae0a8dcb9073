import SearchPipeline.Text.Blank
import SearchPipeline.Text.Run

namespace SearchPipeline.Text

-- The parts between the occurrences of a character. There is always one part at least.
def splitOn (mark : Char) : List Char → List (List Char)
  | [] => [[]]
  | c :: cs =>
      if c = mark then [] :: splitOn mark cs
      else
        match splitOn mark cs with
        | [] => [[c]]
        | part :: parts => (c :: part) :: parts

-- What stands before the first occurrence of a mark, and what stands behind it.
def cut? (mark cs : List Char) : Option (List Char × List Char) :=
  (indexOf? mark cs).map fun index => (cs.take index, cs.drop (index + mark.length))

def stripStart (mark : Char) (cs : List Char) : List Char := cs.dropWhile (· == mark)

def stripEnd (mark : Char) (cs : List Char) : List Char :=
  (cs.reverse.dropWhile (· == mark)).reverse

def strip (mark : Char) (cs : List Char) : List Char := stripEnd mark (stripStart mark cs)

-- Upper-case letters without accents become lower case; everything else stays.
def lower (cs : List Char) : List Char := cs.map Char.toLower

end SearchPipeline.Text
