namespace SearchPipeline

inductive Kind where
  | plus | minus | star | slash | percent | caret
  -- Boolean words, upper case only.
  | conj | disj | neg
  | eq | ne | gt | lt | ge | le
  | pipe | openParen | closeParen | openBracket | closeBracket | comma | colon | atSign
  -- Clause words, in any case.
  | aliasing | grouping | output | outputNew | within | like
  -- A command that may open a pipeline, such as `search`.
  | openingCommand
  -- A name that is both a command and a function, such as `lookup`.
  | commandOrFunction
  -- A command of a later stage, such as `stats`.
  | command
  -- A search modifier that is also a function, such as `earliest`.
  | modifierOrFunction
  -- `now`, which is both a time and a function.
  | timeOrFunction
  | function
  | time | number | string | word
  | blank | comment
  | finish
deriving DecidableEq, Repr, Inhabited

namespace Kind

-- Blanks and comments separate tokens and mean nothing else.
def isTrivia : Kind → Bool
  | blank | comment => true
  | _ => false

def isCommand : Kind → Bool
  | openingCommand | commandOrFunction | command => true
  | _ => false

def isFunction : Kind → Bool
  | like | commandOrFunction | modifierOrFunction | timeOrFunction | function => true
  | _ => false

def isComparison : Kind → Bool
  | eq | ne | gt | lt | ge | le => true
  | _ => false

-- Words of every kind that the grammar accepts as a name.
def isName (kind : Kind) : Bool := kind == word || kind.isCommand || kind.isFunction

def describe : Kind → String
  | plus => "'+'"
  | minus => "'-'"
  | star => "'*'"
  | slash => "'/'"
  | percent => "'%'"
  | caret => "'^'"
  | conj => "AND"
  | disj => "OR"
  | neg => "NOT"
  | eq => "'='"
  | ne => "'!='"
  | gt => "'>'"
  | lt => "'<'"
  | ge => "'>='"
  | le => "'<='"
  | pipe => "'|'"
  | openParen => "'('"
  | closeParen => "')'"
  | openBracket => "'['"
  | closeBracket => "']'"
  | comma => "','"
  | colon => "':'"
  | atSign => "'@'"
  | aliasing => "AS"
  | grouping => "BY"
  | output => "OUTPUT"
  | outputNew => "OUTPUTNEW"
  | within => "IN"
  | like => "LIKE"
  | openingCommand => "INIT_COMMAND"
  | commandOrFunction => "STD_COMMAND_AND_FUNCTION"
  | command => "STD_COMMAND"
  | modifierOrFunction => "MODIFIER_AND_FUNCTION"
  | timeOrFunction => "TIME_AND_FUNCTION"
  | function => "FUNCTION"
  | time => "TIME"
  | number => "NUMBER"
  | string => "STRING"
  | word => "IDENTIFIER"
  | blank => "whitespace"
  | comment => "comment"
  | finish => "<EOF>"

end Kind

end SearchPipeline
