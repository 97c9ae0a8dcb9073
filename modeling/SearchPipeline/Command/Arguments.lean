namespace SearchPipeline.Command

-- The value of an option stands behind `=`, behind its letter, or in the next argument.
structure OptionSpec where
  letter : Option Char
  name : String
  takesValue : Bool
  -- May be given more than once.
  repeatable : Bool := false

-- The arguments of one command, sorted out.
structure Given where
  operands : List String := []
  options : List (String × String) := []

namespace Given

def addOperand (given : Given) (operand : String) : Given :=
  { given with operands := given.operands ++ [operand] }

-- An option given again is an error unless it is repeatable.
def addOption? (given : Given) (spec : OptionSpec) (value : String) : Option Given :=
  if !spec.repeatable && (given.options.lookup spec.name).isSome then none
  else some { given with options := given.options ++ [(spec.name, value)] }

def value? (given : Given) (name : String) : Option String := given.options.lookup name

def values (given : Given) (name : String) : List String :=
  (given.options.filter (·.1 == name)).map (·.2)

def isSet (given : Given) (name : String) : Bool := (given.value? name).isSome

end Given

-- Anything that starts with a dash, but for the dash alone, is meant as an option.
def looksLikeOption (argument : String) : Bool :=
  argument.toList.head? == some '-' && argument.length > 1

-- What an argument with options asks for: options that are complete, and perhaps one that
-- still needs its value from the next argument.
structure Demand where
  complete : List (OptionSpec × String)
  pending : Option OptionSpec

-- `--name` or `--name=value`
def longOption? (specs : List OptionSpec) (body : List Char) : Option Demand := do
  let name := body.takeWhile (· != '=')
  let spec ← specs.find? (·.name == String.ofList name)
  match spec.takesValue, body.drop name.length with
  | true, '=' :: value => some ⟨[(spec, String.ofList value)], none⟩
  | true, _ => some ⟨[], some spec⟩
  | false, [] => some ⟨[(spec, "")], none⟩
  | false, _ => none

-- Letters one behind the other. The first that takes a value takes the rest of the argument.
def shortOptions? (specs : List OptionSpec) : List Char → Option Demand
  | [] => some ⟨[], none⟩
  | letter :: rest => do
    let spec ← specs.find? (·.letter == some letter)
    if spec.takesValue then
      match rest with
      | [] => some ⟨[], some spec⟩
      | '=' :: value => some ⟨[(spec, String.ofList value)], none⟩
      | value => some ⟨[(spec, String.ofList value)], none⟩
    else
      let demand ← shortOptions? specs rest
      some { demand with complete := (spec, "") :: demand.complete }

def demand? (specs : List OptionSpec) (argument : String) : Option Demand :=
  match argument.toList with
  | '-' :: '-' :: body => longOption? specs body
  | '-' :: body => shortOptions? specs body
  | _ => none

def addAll? (given : Given) (complete : List (OptionSpec × String)) : Option Given :=
  complete.foldlM (fun given (spec, value) => given.addOption? spec value) given

-- Sorts arguments out. An option that waits for its value must be followed by one.
def sortOut? (specs : List OptionSpec) (given : Given) (pending : Option OptionSpec) :
    List String → Option Given
  | [] => if pending.isSome then none else some given
  | argument :: rest =>
    match pending with
    | some spec =>
        if looksLikeOption argument then none
        else do
          let given ← given.addOption? spec argument
          sortOut? specs given none rest
    | none =>
      if argument = "--" then some { given with operands := given.operands ++ rest }
      else if looksLikeOption argument then do
        let demand ← demand? specs argument
        let given ← addAll? given demand.complete
        sortOut? specs given demand.pending rest
      else sortOut? specs (given.addOperand argument) none rest

-- What the command line asks for.
inductive Request where
  | map (query : Option String) (mappings config : Option String) (context : List String)
  | discover (query : Option String) (indented : Bool)
  | validate (query : Option String)
  | parse (query : Option String) (indented : Bool)
  | checkConfig (path : String)
deriving DecidableEq, Repr

def mapSpecs : List OptionSpec :=
  [⟨some 'm', "mappings", true, false⟩, ⟨some 'c', "config", true, false⟩,
   ⟨none, "context", true, true⟩]

def prettySpecs : List OptionSpec := [⟨some 'p', "pretty", false, false⟩]

-- One operand at most.
def operand? (given : Given) : Option (Option String) :=
  match given.operands with
  | [] => some none
  | [operand] => some (some operand)
  | _ => none

-- The name of a file must not be empty.
def path? (path : Option String) : Option (Option String) :=
  if path = some "" then none else some path

-- The request, or nothing if the arguments do not fit.
def Request.ofArguments? : List String → Option Request
  | "map" :: arguments => do
      let given ← sortOut? mapSpecs {} none arguments
      let query ← operand? given
      let mappings ← path? (given.value? "mappings")
      let config ← path? (given.value? "config")
      return .map query mappings config (given.values "context")
  | "discover" :: arguments => do
      let given ← sortOut? prettySpecs {} none arguments
      return .discover (← operand? given) (given.isSet "pretty")
  | "validate" :: arguments => do
      let given ← sortOut? [] {} none arguments
      return .validate (← operand? given)
  | "parse" :: arguments => do
      let given ← sortOut? prettySpecs {} none arguments
      return .parse (← operand? given) (given.isSet "pretty")
  | "check-config" :: arguments => do
      let given ← sortOut? [] {} none arguments
      match ← path? (← operand? given) with
      | some path => return .checkConfig path
      | none => none
  | _ => none

end SearchPipeline.Command
