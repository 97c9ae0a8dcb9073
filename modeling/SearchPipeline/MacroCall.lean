import SearchPipeline.Text.Split

namespace SearchPipeline

-- A name of letters, digits and underscores between backticks, and perhaps arguments in parentheses
-- that hold no closing parenthesis. The grammar has no place for it, so it is found in the bare text.
structure MacroCall where
  name : String
  -- What stands between the parentheses, if there are any.
  arguments : Option String
deriving DecidableEq, Repr

namespace MacroCall

open Text

def tick : Char := '\x60'

def opensName (c : Char) : Bool := c.isAlpha || c == '_'

def extendsName (c : Char) : Bool := c.isAlphanum || c == '_'

-- The arguments with their parentheses, and the number of characters that those take.
def arguments? : List Char → Option String × Nat
  | '(' :: cs =>
      let count := classLength (· != ')') cs
      let enclosed := '(' :: cs.take (count + 1)
      (some (String.ofList (stripEnd ')' (stripStart '(' enclosed))), count + 2)
  | _ => (none, 0)

-- A call right behind its opening backtick, and the number of characters through the closing
-- one.
def after? (cs : List Char) : Option (MacroCall × Nat) :=
  let name := classLength extendsName cs
  let (arguments, count) := arguments? (cs.drop name)
  if headIs opensName cs ∧ headIs (· == tick) (cs.drop (name + count)) then
    some (⟨String.ofList (cs.take name), arguments⟩, name + count + 1)
  else none

-- The calls in a text after `skip` characters, from left to right. A call found is passed over
-- as a whole.
def callsFrom (skip : Nat) : List Char → List MacroCall
  | [] => []
  | c :: cs =>
    match skip with
    | skip + 1 => callsFrom skip cs
    | 0 =>
      if c = tick then
        match after? cs with
        | some (call, count) => call :: callsFrom count cs
        | none => callsFrom 0 cs
      else callsFrom 0 cs

def calls (query : String) : List MacroCall := callsFrom 0 query.toList

-- The names of the calls, each where it first occurs.
def names (query : String) : List String :=
  (calls query).foldl
    (fun found call => if call.name ∈ found then found else found ++ [call.name]) []

end MacroCall

end SearchPipeline
