import SearchPipeline.Text.Blank
import SearchPipeline.Text.Numeric
import SearchPipeline.Text.Position
import SearchPipeline.Text.Run
import SearchPipeline.Token.Basic
import SearchPipeline.Token.Keyword

namespace SearchPipeline.Scan

open Text

-- What can be wrong with the characters of a query.
inductive Flaw where
  | stray (c : Char)
  | openComment
  | openString (quote : Char)
deriving DecidableEq, Repr

def Flaw.message : Flaw → String
  | .stray c => "token recognition error at: '" ++ c.toString ++ "'"
  | .openComment => "unterminated comment"
  | .openString quote => "unterminated string literal starting with " ++ quote.toString

-- The verdict on the characters at hand: a kind or a flaw, and how many characters behind the
-- first one it covers.
structure Lexeme where
  verdict : Except Flaw Kind
  more : Nat

def isDigit (c : Char) : Bool := c.isDigit

def isLetter (c : Char) : Bool := c.isAlpha

-- Characters that go on a word wherever they stand in it.
def isWordChar (c : Char) : Bool := isAlphanumeric c || c == '_' || c == '.'

def opensWord (c : Char) : Bool := isAlphabetic c || c == '_'

-- A colon goes on a word when the word continues behind it.
def extendsWord (c : Char) (rest : List Char) : Bool :=
  isWordChar c || c == ':' && headIs (fun d => isAlphanumeric d || d == '_') rest

-- A point goes on a number when a digit follows, so `192.168.1.1` is one number.
def extendsNumber (c : Char) (rest : List Char) : Bool :=
  isDigit c || c == '.' && headIs isDigit rest

-- The length of an exponent, or zero. `1e5x` is a number followed by a word.
def exponentLength : List Char → Nat
  | [] => 0
  | e :: rest =>
      let sign := if headIs (fun c => c == '+' || c == '-') rest then 1 else 0
      let digits := classLength isDigit (rest.drop sign)
      let behind := rest.drop (sign + digits)
      if (e == 'e' || e == 'E') && digits > 0 && !headIs opensWord behind
      then 1 + sign + digits else 0

def numberLength (cs : List Char) : Nat :=
  let body := runLength extendsNumber cs
  body + exponentLength (cs.drop body)

-- A run of digits whose length lies between two bounds.
def digitsBetween? (low high : Nat) (cs : List Char) : Option Nat :=
  let count := classLength isDigit cs
  if low ≤ count ∧ count ≤ high then some count else none

def mark? (c : Char) (cs : List Char) : Option Nat :=
  if headIs (· == c) cs then some 1 else none

-- Lengths of pieces that must all be present, one behind the other.
def sequence? (pieces : List (List Char → Option Nat)) (cs : List Char) : Option Nat :=
  match pieces with
  | [] => some 0
  | piece :: rest => do
      let count ← piece cs
      let others ← sequence? rest (cs.drop count)
      return count + others

-- `10/01/2024`
def date? : List Char → Option Nat :=
  sequence? [digitsBetween? 1 2, mark? '/', digitsBetween? 1 2, mark? '/', digitsBetween? 4 4]

-- `:07:30:00`
def timeOfDay? : List Char → Option Nat :=
  sequence? [mark? ':', digitsBetween? 1 2, mark? ':', digitsBetween? 2 2, mark? ':',
    digitsBetween? 2 2]

def absoluteTime? (cs : List Char) : Option Nat := do
  let count ← date? cs
  return count + (timeOfDay? (cs.drop count)).getD 0

-- `@d` or `@w0`, the unit that a relative time is rounded down to.
def snap? : List Char → Option Nat
  | '@' :: rest =>
      let letters := classLength isLetter rest
      if String.ofList (rest.take letters) ∈ Keyword.timeUnits
      then some (1 + letters + classLength isDigit (rest.drop letters)) else none
  | _ => none

-- `24h` or `7d@d`. A time is not a time when a word goes on behind it.
def relativeTime? (cs : List Char) : Option Nat := do
  let digits := classLength isDigit cs
  let letters := classLength isLetter (cs.drop digits)
  let unit := String.ofList ((cs.drop digits).take letters)
  if digits = 0 ∨ unit ∉ Keyword.timeUnits then none
  let count := digits + letters
  let rounding ← if headIs (· == '@') (cs.drop count) then snap? (cs.drop count) else some 0
  let total := count + rounding
  if headIs isWordChar (cs.drop total) then none
  return total

-- `@d` on its own.
def loneSnap? (cs : List Char) : Option Nat := do
  let count ← snap? cs
  if headIs isWordChar (cs.drop count) then none
  return count

-- The number of characters through the closing quote. A backslash takes the next character
-- with it, whatever that is.
def quotedLength? (quote : Char) : List Char → Option Nat
  | [] => none
  | '\\' :: _ :: rest => (quotedLength? quote rest).map (· + 2)
  | c :: rest => if c = quote then some 1 else (quotedLength? quote rest).map (· + 1)

-- The single-character tokens.
def symbol? : Char → Option Kind
  | '+' => some .plus
  | '-' => some .minus
  | '*' => some .star
  | '/' => some .slash
  | '%' => some .percent
  | '^' => some .caret
  | '=' => some .eq
  | '>' => some .gt
  | '<' => some .lt
  | '|' => some .pipe
  | '(' => some .openParen
  | ')' => some .closeParen
  | '[' => some .openBracket
  | ']' => some .closeBracket
  | ',' => some .comma
  | ':' => some .colon
  | '@' => some .atSign
  | _ => none

-- Comparisons that end in an equality sign.
def pairSymbol? : Char → List Char → Option Kind
  | '!', '=' :: _ => some .ne
  | '>', '=' :: _ => some .ge
  | '<', '=' :: _ => some .le
  | _, _ => none

-- A comment that runs to its closing mark, `opened` characters behind the first one.
def blockComment (close : List Char) (opened : Nat) (cs : List Char) : Lexeme :=
  match indexOf? close (cs.drop opened) with
  | some index => ⟨.ok .comment, opened + index + close.length⟩
  | none => ⟨.error .openComment, cs.length⟩

def ticks : List Char := ['\x60', '\x60', '\x60']

def comment? (previous : Option Char) (c : Char) (cs : List Char) : Option Lexeme :=
  if ticks.isPrefixOf (c :: cs) then some (blockComment ticks 2 cs)
  else if c = '/' ∧ headIs (· == '*') cs then some (blockComment ['*', '/'] 1 cs)
  else if c = '/' ∧ headIs (· == '/') cs ∧ previous.all isBlank then
    some ⟨.ok .comment, classLength (· != '\n') cs⟩
  else none

def quoted? (c : Char) (cs : List Char) : Option Lexeme :=
  if c = '"' ∨ c = '\x27' then
    match quotedLength? c cs with
    | some count => some ⟨.ok .string, count⟩
    | none => some ⟨.error (.openString c), cs.length⟩
  else none

-- Times and numbers that open with a digit.
def digits? (c : Char) (cs : List Char) : Option Lexeme :=
  if isDigit c then
    match (absoluteTime? (c :: cs)).or (relativeTime? (c :: cs)) with
    | some count => some ⟨.ok .time, count - 1⟩
    | none => some ⟨.ok .number, numberLength (c :: cs) - 1⟩
  else none

-- Times that open with a sign or with a rounding mark.
def markedTime? (c : Char) (cs : List Char) : Option Lexeme :=
  if c = '+' ∨ c = '-' then (relativeTime? cs).map fun count => ⟨.ok .time, count⟩
  else if c = '@' then (loneSnap? (c :: cs)).map fun count => ⟨.ok .time, count - 1⟩
  else none

-- A word may open with a point, as in `*.log`.
def word? (c : Char) (cs : List Char) : Option Lexeme :=
  if opensWord c ∨ c = '.' ∧ headIs opensWord cs then
    let count := runLength extendsWord cs
    some ⟨.ok (Keyword.classify (String.ofList (c :: cs.take count))), count⟩
  else if c = '.' ∧ headIs isDigit cs then
    some ⟨.ok .number, numberLength (c :: cs) - 1⟩
  else none

def operator (c : Char) (cs : List Char) : Lexeme :=
  match pairSymbol? c cs with
  | some kind => ⟨.ok kind, 1⟩
  | none =>
    match symbol? c with
    | some kind => ⟨.ok kind, 0⟩
    | none => ⟨.error (.stray c), 0⟩

-- The rules in order; the first that applies decides.
def lexeme (previous : Option Char) (c : Char) (cs : List Char) : Lexeme :=
  if isBlank c then ⟨.ok .blank, classLength isBlank cs⟩
  else
    ((comment? previous c cs).or <| (quoted? c cs).or <| (digits? c cs).or <|
      (markedTime? c cs).or <| word? c cs).getD (operator c cs)

-- A flaw and the byte offset where it begins.
structure Mistake where
  start : Nat
  flaw : Flaw
deriving DecidableEq, Repr

-- One result of scanning.
abbrev Item := Except Mistake Token

def item (start : Nat) (c : Char) (cs : List Char) (found : Lexeme) : Item :=
  match found.verdict with
  | .ok kind => .ok ⟨kind, String.ofList (c :: cs.take found.more), start⟩
  | .error flaw => .error ⟨start, flaw⟩

-- Scans what is left, after `skip` characters that belong to an item already found. The items
-- are collected in reverse. The last item is always the token that marks the end.
def itemsFrom (found : List Item) (skip : Nat) (previous : Option Char) (offset : Nat) :
    List Char → List Item
  | [] => (.ok ⟨.finish, "", offset⟩ :: found).reverse
  | c :: cs =>
    match skip with
    | skip + 1 => itemsFrom found skip (some c) (offset + c.utf8Size) cs
    | 0 =>
      let next := lexeme previous c cs
      itemsFrom (item offset c cs next :: found) next.more (some c) (offset + c.utf8Size) cs

def items (query : String) : List Item := itemsFrom [] 0 none 0 query.toList

def mistakes (found : List Item) : List Mistake :=
  found.filterMap fun
    | .error mistake => some mistake
    | .ok _ => none

def tokensOf (found : List Item) : List Token :=
  found.filterMap fun
    | .ok token => some token
    | .error _ => none

-- The tokens of a query, or everything that is wrong with its characters.
def tokens (query : String) : Except (List Mistake) (List Token) :=
  let found := items query
  match mistakes found with
  | [] => .ok (tokensOf found)
  | wrong => .error wrong

-- The kinds of the tokens that are not blanks or comments.
def significantKinds (found : List Token) : List Kind :=
  (found.filter (!·.isTrivia)).map (·.kind)

-- Repeated requests for the next item: at the end, the final token is given again.
def stream (query : String) (limit : Nat) : List Item :=
  let found := items query
  (found ++ found.getLast?.toList).take limit

end SearchPipeline.Scan
