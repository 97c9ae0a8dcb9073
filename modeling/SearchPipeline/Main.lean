import SearchPipeline.Command.Run

namespace SearchPipeline.Program

open Command

def reason : IO.Error → String
  | .noFileOrDirectory _ _ _ => "No such file or directory (os error 2)"
  | error => toString error

-- The files that a request names.
def paths : Request → List String
  | .map _ mappings config _ => mappings.toList ++ config.toList
  | .checkConfig path => [path]
  | _ => []

def readFiles (request : Request) : IO (List (String × Except String String)) :=
  (paths request).mapM fun (path : String) => do
    let content ← (IO.FS.readFile path).toBaseIO
    return (path, content.mapError reason)

-- Whether the query is missing and comes from standard input.
def needsInput : Request → Bool
  | .map none _ _ _ | .discover none _ | .validate none | .parse none _ => true
  | _ => false

def readAll (stream : IO.FS.Stream) : IO String := do
  let mut text := ""
  repeat
    let line ← stream.getLine
    if line.isEmpty then break
    text := text ++ line
  return text

def outcome (arguments : List String) : IO Outcome := do
  match Request.ofArguments? arguments with
  | none => return .usage
  | some request =>
    let files ← readFiles request
    let stdin ← if needsInput request then readAll (← IO.getStdin) else pure ""
    let content (path : String) : Except String String := (files.lookup path).getD (.ok "")
    return request.run content stdin

end SearchPipeline.Program

def main (arguments : List String) : IO UInt32 := do
  let outcome ← SearchPipeline.Program.outcome arguments
  IO.print outcome.stdout
  IO.eprint outcome.stderr
  return outcome.code.toUInt32
