namespace SearchPipeline

-- The library that patterns are left to. What it takes for a pattern, and in which texts it finds
-- one, is up to it: all that is asked is that the answers depend on nothing but the pattern and the
-- text, which the types say.
class Pattern.Engine where
  Compiled : Type
  -- The pattern that a text spells, or what is wrong with the text.
  compile : String → Except String Compiled
  -- Whether a pattern occurs anywhere in a text.
  occursIn : Compiled → String → Bool

-- The engine of patterns that only ask how a text begins: `^`, and behind it letters and digits,
-- which stand for themselves.
@[reducible] def Pattern.Engine.prefixes : Engine where
  Compiled := List Char
  compile text :=
    match text.toList with
    | '^' :: cs => if cs.all Char.isAlphanum then .ok cs else .error "no letter or digit"
    | _ => .error "no anchor"
  occursIn pattern text := pattern.isPrefixOf text.toList

end SearchPipeline
