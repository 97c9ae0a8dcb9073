import SearchPipeline.Text.Blank
import SearchPipeline.Text.CaseFold
import SearchPipeline.Text.WordCharacter

namespace SearchPipeline.Pattern

open Text

inductive CharSet where
  -- No character at all.
  | nothing
  | range (low high : Char)
  | digit
  | word
  | blank
  | union (a b : CharSet)
  | inter (a b : CharSet)
  | complement (a : CharSet)
  -- Every character that differs from a member in case only.
  | anyCase (a : CharSet)
deriving DecidableEq, Repr

namespace CharSet

def holds : CharSet → Char → Bool
  | nothing, _ => false
  | range low high, c => low ≤ c && c ≤ high
  | digit, c => isDecimal c
  | word, c => isWordCharacter c
  | blank, c => isBlank c
  | union a b, c => a.holds c || b.holds c
  | inter a b, c => a.holds c && b.holds c
  | complement a, c => !a.holds c
  | anyCase a, c => (caseVariants c).any a.holds

def single (c : Char) : CharSet := range c c

def anything : CharSet := complement nothing

def diff (a b : CharSet) : CharSet := inter a (complement b)

def symmetricDiff (a b : CharSet) : CharSet := union (diff a b) (diff b a)

def ofRanges (ranges : List (Char × Char)) : CharSet :=
  ranges.foldr (fun (low, high) rest => union (range low high) rest) nothing

-- The classes written `[:name:]` inside brackets, which hold unaccented characters only.
def named : List (String × CharSet) :=
  [("alnum", ofRanges [('0', '9'), ('A', 'Z'), ('a', 'z')]),
   ("alpha", ofRanges [('A', 'Z'), ('a', 'z')]),
   ("ascii", range '\x00' '\x7f'),
   ("blank", ofRanges [('\t', '\t'), (' ', ' ')]),
   ("cntrl", ofRanges [('\x00', '\x1f'), ('\x7f', '\x7f')]),
   ("digit", range '0' '9'),
   ("graph", range '!' '~'),
   ("lower", range 'a' 'z'),
   ("print", range ' ' '~'),
   ("punct", ofRanges [('!', '/'), (':', '@'), ('[', '\x60'), ('\x7b', '~')]),
   ("space", ofRanges [('\t', '\r'), (' ', ' ')]),
   ("upper", range 'A' 'Z'),
   ("word", ofRanges [('0', '9'), ('A', 'Z'), ('_', '_'), ('a', 'z')]),
   ("xdigit", ofRanges [('0', '9'), ('A', 'F'), ('a', 'f')])]

end CharSet

end SearchPipeline.Pattern
