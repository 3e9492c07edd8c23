import QueryGrammar.Command.Run
/-!
The program: carries out its command line on the files around it.
-/
namespace QueryGrammar

/-- The flaw that a refusal of the system stands for. -/
def FileFlaw.ofError : IO.Error → FileFlaw
  | .noFileOrDirectory .. => .missing
  | .alreadyExists .. => .alreadyThere
  | .inappropriateType _ code _ =>
    if code = 21 || code = 0 - 21 then .isDirectory else .notDirectory
  | .invalidArgument _ 36 _ => .nameTooLong
  | .userError _ => .invalidText
  | error => .other (toString error)

def attempt {α : Type} (x : IO α) : ExceptT FileFlaw IO α := do
  match ← x.toBaseIO with
  | .ok a => return a
  | .error error => throw (.ofError error)

instance : Files IO where
  readText path := attempt (IO.FS.readFile path)
  writeText path text := attempt (IO.FS.writeFile path text)
  makeFolder path := attempt (IO.FS.createDir path)
  isFolder path := do
    try return ← (← IO.FS.realPath path).isDir
    catch _ => return false
  move source target := attempt (IO.FS.rename source target)
  remove path := do
    try IO.FS.removeFile path
    catch _ => return ()

end QueryGrammar

open QueryGrammar in
def main (texts : List String) : IO UInt32 := do
  let answer ← Command.runTexts (toString (← IO.monoNanosNow)) texts
  IO.print answer.printed
  for error in answer.errors do
    IO.eprintln ("error: " ++ error)
  return answer.exitCode.toUInt32
